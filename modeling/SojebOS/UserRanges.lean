import SojebOS.DirectRounds

/-!
# The pages that a call covers

`paging_map_user_memory` rounds the end of the range up in 32 bits. A range that ends in the
last page of the address space has its end rounded to 0, and the loop does not run. The other
ranges are covered where the rounds find the kernel, and the frames they take, in place.
-/
namespace UserRanges

open ByteMemory MachineWord Paging PagingWalks PagingRefinement PagingInit FrameSupply
open KernelMapping UserIsolation DirectAccess DirectRounds

def Meets (va size page : ℕ) : Prop := ∃ x, va ≤ x ∧ x < va + size ∧ x / pageSize = page

section Ranges

variable {va size page : ℕ}

end Ranges

section Rounds

variable {k : KernelImage} {s s' : State} {page f : ℕ} {vs : List ℕ}

end Rounds

end UserRanges
