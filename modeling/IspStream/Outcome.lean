import IspStream.Error
import IspStream.Image.Basic
import IspStream.Notice

/-!
# Outcomes

Decoding and compiling write into an image as they go.  What was written, and
what was reported, before a failure stays, so an outcome holds the image and the
notices whether or not there is an error.
-/

namespace IspStream

/-- What a run over an image leaves behind. -/
structure Outcome where
  /-- The image after the run. -/
  image : Image
  /-- The notices in order. -/
  notices : List Notice
  /-- The end of what was written, or the error that stopped the run. -/
  result : Except Error Nat

namespace Outcome

/-- The outcome of a run that ends here. -/
def stop (image : Image) (result : Except Error Nat) : Outcome := ⟨image, [], result⟩

/-- The outcome with notices from before it. -/
def after (outcome : Outcome) (earlier : List Notice) : Outcome :=
  { outcome with notices := earlier ++ outcome.notices }

end Outcome

end IspStream
