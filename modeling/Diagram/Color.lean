import Diagram.Value.Arithmetic

/-!
# Colors

Constant colors in hexadecimal notation.  The channels of red, green and blue go from 0 to
255, hues are in degrees, saturation and value go from 0 to 1.
-/

namespace Diagram.Color

/-- The channels of red, green and blue of a color by hue, saturation and value. -/
def ofHsv (h s v : Float) : Float × Float × Float :=
  let sector := Decimal.remainder (Decimal.remainder h 360 + 360) 360 / 60
  let chroma := v * s
  let x := chroma * (1 - (Decimal.remainder sector 2 - 1).abs)
  let (r, g, b) :=
    if sector < 1 then (chroma, x, 0)
    else if sector < 2 then (x, chroma, 0)
    else if sector < 3 then (0, chroma, x)
    else if sector < 4 then (0, x, chroma)
    else if sector < 5 then (x, 0, chroma)
    else (chroma, 0, x)
  let m := v - chroma
  ((r + m) * 255, (g + m) * 255, (b + m) * 255)

/-- A channel, clamped and rounded to a whole number. -/
def channel (v : Float) : Int :=
  let clamped := if v < 0 then 0 else if 255 < v then 255 else v
  match (Decimal.Binary.ofFloat clamped).nearest? with
  | some n => n
  | none => Int64.minValue.toInt

def channelText (v : Float) : String :=
  let n := channel v
  let digits := String.ofList (Text.Quoted.hex 2 n.natAbs)
  if n < 0 then "-" ++ digits else digits

def hex (model : ColorModel) (a b c : Float) : String :=
  let (r, g, b) :=
    match model with
    | .rgb => (a, b, c)
    | .hsv => ofHsv a b c
  "#" ++ channelText r ++ channelText g ++ channelText b

end Diagram.Color
