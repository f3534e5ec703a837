import Atari.Value

/-!
# The palette

A color byte holds the hue in its upper half and the luminance in its lower half, whose lowest bit
has no effect. Hue zero is grey; the other fifteen are spread around the color circle.

* `Color.rgb`: red, green and blue of a color byte, by way of the YIQ color space;
* `Color.hex`: the same as six hexadecimal digits.
-/

namespace Atari

namespace Color

/-- The distance of the hues from grey. -/
def saturation : Float := 0.3

/-- The angle of hue one, in radians. -/
def firstAngle : Float := -1.0

def pi : Float := 3.141592653589793

/-- A channel between zero and one as a whole number up to 255. -/
def channel (v : Float) : Nat :=
  let v := if v < 0.0 then 0.0 else if v > 1.0 then 1.0 else v
  (v * 255.0).round.toUInt64.toNat

/-- Red, green and blue of a color byte. -/
def rgb (color : Byte) : Nat × Nat × Nat :=
  let hue := Float.ofNat (color >>> 4).toNat
  let y := Float.ofNat (color &&& 0x0E).toNat / 14.0
  let angle := firstAngle + (hue - 1.0) * 2.0 * pi / 15.0
  let (i, q) := if color >>> 4 = 0 then (0.0, 0.0)
    else (saturation * angle.cos, saturation * angle.sin)
  (channel (y + 0.956 * i + 0.621 * q), channel (y - 0.272 * i - 0.647 * q),
    channel (y - 1.106 * i + 1.703 * q))

/-- Six hexadecimal digits: red, green and blue. -/
def hex (color : Byte) : String :=
  let (r, g, b) := rgb color
  Atari.hex .lower 2 r ++ Atari.hex .lower 2 g ++ Atari.hex .lower 2 b

end Color

end Atari
