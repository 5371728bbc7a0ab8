import IspStream.Image.Decode

/-!
# Loading hex files

A run that depends on files takes them as a function from paths to their text, or
to the reason why there is none.  The function stands for files that do not change
during the run.
-/

namespace IspStream

/-- Reads the text of a file. -/
abbrev Files.Reader := String → Except Files.Fault String

namespace Image

/-- Decodes a hex file into an image, shifted up by an offset. -/
def load (image : Image) (read : Files.Reader) (path : String) (offset : Nat) : Outcome :=
  match read path with
  | .error fault => .stop image (.error (.file path fault))
  | .ok text => image.decode text offset

end Image

end IspStream
