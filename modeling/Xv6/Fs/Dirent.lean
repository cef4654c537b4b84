import Xv6.Fs.Ownership

/-!
# Directory entries

A directory is a file of entries of 16 bytes, an inode number and a name each.  This file is about
the bytes alone: which name maps to which inode number (`Maps`), and what storing an entry does to
that map.

* `strncmp_eq_zero_iff`, `nameOf_strncpy` — names are compared and stored up to a NUL, or 14 bytes.
* `maps_store` — storing an entry changes the map at that entry only.
-/

namespace Xv6.Fs

open List

variable {dir e name name' : List UInt8} {inum inum' off off' o n : ℕ}

/-! ## Names -/

/-- What comes before the first NUL, but no more than `n` bytes. -/
def upTo (n : ℕ) (p : List UInt8) : List UInt8 := (p.take n).takeWhile (· ≠ 0)

/-- The name a string stands for in a directory. -/
def nameOf (p : List UInt8) : List UInt8 := upTo DIRSIZ p

theorem upTo_nil (n : ℕ) : upTo n [] = [] := by
  rw [upTo, take_nil, takeWhile_nil]

theorem upTo_cons (n : ℕ) (a : UInt8) (p : List UInt8) :
    upTo (n + 1) (a :: p) = if a = 0 then [] else a :: upTo n p := by
  rw [upTo, upTo, take_succ_cons, takeWhile_cons]
  by_cases ha : a = 0
  · simp [ha]
  · simp [ha]

theorem toNat_sub_eq_zero (a b : UInt8) : (a.toNat : ℤ) - b.toNat = 0 ↔ a = b := by
  rw [sub_eq_zero, Int.natCast_inj, UInt8.toNat_inj]

theorem strncmp_eq_zero_iff (n : ℕ) :
    ∀ p q : List UInt8, strncmp n p q = 0 ↔ upTo n p = upTo n q := by
  induction n with
  | zero =>
    intro p q
    simp [strncmp, upTo]
  | succ n ih =>
    intro p q
    rw [strncmp]
    cases p with
    | nil =>
      rw [headD_nil, if_neg (fun h => h.1 rfl), toNat_sub_eq_zero, upTo_nil]
      cases q with
      | nil => simp [upTo_nil]
      | cons b q =>
        rw [headD_cons, upTo_cons]
        by_cases hb : b = 0
        · simp [hb]
        · simp [hb, Ne.symm hb]
    | cons a p =>
      rw [headD_cons, upTo_cons]
      by_cases ha : a = 0
      · rw [if_neg (fun h => h.1 ha), toNat_sub_eq_zero, if_pos ha, ha]
        cases q with
        | nil => simp [upTo_nil]
        | cons b q =>
          rw [headD_cons, upTo_cons]
          by_cases hb : b = 0
          · simp [hb]
          · simp [hb, Ne.symm hb]
      · rw [if_neg ha]
        cases q with
        | nil =>
          rw [headD_nil, if_neg (fun h => ha h.2), toNat_sub_eq_zero, upTo_nil]
          simp [ha]
        | cons b q =>
          rw [headD_cons, upTo_cons]
          by_cases hab : a = b
          · rw [if_pos ⟨ha, hab⟩, tail_cons, tail_cons, ih, ← hab, if_neg ha]
            simp
          · rw [if_neg (fun h => hab h.2), toNat_sub_eq_zero]
            by_cases hb : b = 0
            · simp [hb, ha]
            · simp [hb, hab]

theorem upTo_strncpy (n : ℕ) : ∀ t : List UInt8, upTo n (strncpy n t) = upTo n t := by
  induction n with
  | zero =>
    intro t
    simp [upTo]
  | succ n ih =>
    intro t
    rw [strncpy, upTo_cons]
    cases t with
    | nil => simp [upTo_nil]
    | cons a t =>
      rw [headD_cons, upTo_cons, tail_cons]
      by_cases ha : a = 0
      · rw [if_pos ha, if_pos ha]
      · rw [if_neg ha, if_neg ha, if_neg ha, ih]

/-! ## The bytes of an entry -/

theorem length_encodeDirent (inum : ℕ) (name : List UInt8) :
    (encodeDirent inum name).length = DIRENT := by
  rw [encodeDirent, length_cons, length_cons, length_strncpy]
  rfl

theorem nameOf_encodeDirent (inum : ℕ) (name : List UInt8) :
    nameOf ((encodeDirent inum name).drop 2) = nameOf name :=
  upTo_strncpy DIRSIZ name

/-! ## The map -/

/-- The entry at an offset. -/
def direntAt (dir : List UInt8) (off : ℕ) : List UInt8 := (dir.drop off).take DIRENT

/-- In the directory with the contents `dir`, the entry at `off` maps the name to the inode number. -/
structure Maps (dir name : List UInt8) (inum off : ℕ) : Prop where
  aligned : off % DIRENT = 0
  within : off + DIRENT ≤ dir.length
  inum_eq : direntInum (direntAt dir off) = inum
  used : inum ≠ 0
  name_eq : nameOf ((direntAt dir off).drop 2) = nameOf name

/-- **A directory is a map**: whole entries only, and no name twice. -/
structure IsMap (dir : List UInt8) : Prop where
  size : dir.length % DIRENT = 0
  unique : ∀ name inum inum' off off', Maps dir name inum off → Maps dir name inum' off' → off = off'

/-- The contents with `e` stored at `off`. -/
def store (dir : List UInt8) (off : ℕ) (e : List UInt8) : List UInt8 :=
  dir.take off ++ e ++ dir.drop (off + e.length)

theorem length_store (h : off ≤ dir.length) :
    (store dir off e).length = max dir.length (off + e.length) := by
  simp only [store, length_append, length_take, length_drop]
  omega

theorem getElem?_store (h : off ≤ dir.length) (p : ℕ) : (store dir off e)[p]? =
    if p < off then dir[p]? else if p < off + e.length then e[p - off]? else dir[p]? := by
  have htake : (dir.take off).length = off := by
    rw [length_take]
    omega
  rw [store, append_assoc, getElem?_append, htake]
  by_cases h₁ : p < off
  · rw [if_pos h₁, if_pos h₁, getElem?_take, if_pos h₁]
  · rw [if_neg h₁, if_neg h₁, getElem?_append]
    by_cases h₂ : p < off + e.length
    · rw [if_pos (by omega), if_pos h₂]
    · rw [if_neg (by omega), if_neg h₂, getElem?_drop]
      congr 1
      omega

theorem getElem?_direntAt (dir : List UInt8) (o q : ℕ) :
    (direntAt dir o)[q]? = if q < DIRENT then dir[o + q]? else none := by
  rw [direntAt, getElem?_take, getElem?_drop]

theorem direntAt_store_self (h : off ≤ dir.length) (he : e.length = DIRENT) :
    direntAt (store dir off e) off = e := by
  refine ext_getElem? fun q => ?_
  rw [getElem?_direntAt, getElem?_store h]
  by_cases hq : q < DIRENT
  · rw [if_pos hq, if_neg (by omega), if_pos (by omega), Nat.add_sub_cancel_left]
  · rw [if_neg hq, getElem?_eq_none (by omega)]

theorem direntAt_store_of_ne (h : off ≤ dir.length) (he : e.length = DIRENT)
    (hoff : off % DIRENT = 0) (ho : o % DIRENT = 0) (hne : o ≠ off) :
    direntAt (store dir off e) o = direntAt dir o := by
  refine ext_getElem? fun q => ?_
  rw [getElem?_direntAt, getElem?_direntAt, getElem?_store h]
  by_cases hq : q < DIRENT
  · rw [if_pos hq, if_pos hq]
    simp only [DIRENT, DIRSIZ] at he hoff ho hq
    by_cases h₁ : o + q < off
    · rw [if_pos h₁]
    · rw [if_neg h₁, if_neg (by omega)]
  · rw [if_neg hq, if_neg hq]

theorem maps_store (hc : dir.length % DIRENT = 0) (h : off ≤ dir.length) (hoff : off % DIRENT = 0)
    (he : e.length = DIRENT) : Maps (store dir off e) name inum o ↔
      o = off ∧ direntInum e = inum ∧ inum ≠ 0 ∧ nameOf (e.drop 2) = nameOf name ∨
        o ≠ off ∧ Maps dir name inum o := by
  have hlen := length_store (e := e) h
  by_cases ho : o = off
  · constructor
    · rintro ⟨-, -, hinum, hused, hname⟩
      rw [ho, direntAt_store_self h he] at hinum hname
      exact .inl ⟨ho, hinum, hused, hname⟩
    · rintro (⟨-, hinum, hused, hname⟩ | ⟨hne, -⟩)
      · rw [ho]
        refine ⟨hoff, by omega, ?_, hused, ?_⟩
        · rwa [direntAt_store_self h he]
        · rwa [direntAt_store_self h he]
      · exact absurd ho hne
  · constructor
    · rintro ⟨hal, hin, hinum, hused, hname⟩
      rw [direntAt_store_of_ne h he hoff hal ho] at hinum hname
      refine .inr ⟨ho, hal, ?_, hinum, hused, hname⟩
      rw [hlen, he] at hin
      simp only [DIRENT, DIRSIZ] at hin hal hoff hc ⊢
      omega
    · rintro (⟨heq, -⟩ | ⟨-, hal, hin, hinum, hused, hname⟩)
      · exact absurd heq ho
      · refine ⟨hal, by omega, ?_, hused, ?_⟩
        · rwa [direntAt_store_of_ne h he hoff hal ho]
        · rwa [direntAt_store_of_ne h he hoff hal ho]

theorem length_store_mod (hc : dir.length % DIRENT = 0) (h : off ≤ dir.length)
    (hoff : off % DIRENT = 0) (he : e.length = DIRENT) : (store dir off e).length % DIRENT = 0 := by
  rw [length_store h, he]
  simp only [DIRENT, DIRSIZ] at hc hoff ⊢
  omega

theorem Maps.of_name (h : Maps dir name inum off) (hname : nameOf name = nameOf name') :
    Maps dir name' inum off :=
  ⟨h.aligned, h.within, h.inum_eq, h.used, h.name_eq.trans hname⟩

theorem IsMap.link (h : IsMap dir) (hnew : ∀ inum off, ¬Maps dir name inum off) (hoff : off ≤ dir.length)
    (hal : off % DIRENT = 0) : IsMap (store dir off (encodeDirent inum name)) := by
  have he := length_encodeDirent inum name
  refine ⟨length_store_mod h.size hoff hal he, fun nm i i' o o' hm hm' => ?_⟩
  rw [maps_store h.size hoff hal he, nameOf_encodeDirent] at hm hm'
  obtain ⟨ho, -, -, hname⟩ | ⟨ho, hold⟩ := hm
  · obtain ⟨ho', -⟩ | ⟨-, hold'⟩ := hm'
    · rw [ho, ho']
    · exact absurd (hold'.of_name hname.symm) (hnew _ _)
  · obtain ⟨-, -, -, hname⟩ | ⟨-, hold'⟩ := hm'
    · exact absurd (hold.of_name hname.symm) (hnew _ _)
    · exact h.unique nm i i' o o' hold hold'

def zeroDirent : List UInt8 := List.replicate DIRENT 0

theorem IsMap.clear (h : IsMap dir) (hoff : off ≤ dir.length) (hal : off % DIRENT = 0) :
    IsMap (store dir off zeroDirent) := by
  have he : zeroDirent.length = DIRENT := length_replicate
  refine ⟨length_store_mod h.size hoff hal he, fun nm i i' o o' hm hm' => ?_⟩
  have hzero : direntInum zeroDirent = 0 := rfl
  rw [maps_store h.size hoff hal he, hzero] at hm hm'
  obtain ⟨-, hi, hused, -⟩ | ⟨-, hold⟩ := hm
  · exact absurd hi.symm hused
  · obtain ⟨-, hi, hused, -⟩ | ⟨-, hold'⟩ := hm'
    · exact absurd hi.symm hused
    · exact h.unique nm i i' o o' hold hold'

end Xv6.Fs
