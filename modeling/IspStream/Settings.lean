/-!
# Memory layout and compiler settings
-/

namespace IspStream

/-- The memories of the programmer and of the devices it programs. -/
structure Layout where
  /-- The flash size of the programmer's own controller. -/
  controllerMemorySize : Nat := 128 * 1024
  /-- The size of the greatest image that a script may refer to. -/
  targetMemorySize : Nat := 256 * 1024
  /-- Where in the controller's flash the command stream starts. -/
  scriptStart : Nat := 0x1000
deriving DecidableEq, Repr

/-- What the script compiler has to know. -/
structure Settings where
  /-- The capacity of the image that a referenced hex file is decoded into. -/
  targetMemorySize : Nat
  /-- The least bound that any page size gives, see `Settings.bound`. -/
  minimumBound : Nat := 64
  /-- The directory against which file names in a script are resolved. -/
  baseDirectory? : Option String := none
deriving DecidableEq, Repr

/-- The settings for a layout. -/
def Layout.settings (layout : Layout) : Settings where
  targetMemorySize := layout.targetMemorySize

/-- The greatest bound. -/
def Settings.maximumBound : Nat := 0xFFFFFFFFFFFFFFFF

/-- The longest run of blank cells that stays inside a block when programming
with the given page size: two pages, but no less than the minimum. -/
def Settings.bound (settings : Settings) (pageSize : Nat) : Nat :=
  max settings.minimumBound (min (2 * pageSize) Settings.maximumBound)

end IspStream
