/-!
# Lower case

The simple lower-case mapping of Unicode: one code point to one code point. Beyond
ASCII it is a table of runs of letters that all move by the same distance.
-/

namespace Locomotive.Text

/-- The code points `first`, `first + step`, ..., `last`, which move by `shift`. -/
structure CaseRun where
  first : Nat
  last : Nat
  step : Nat
  shift : Int

/-- The run holds the code point. -/
def CaseRun.holds (r : CaseRun) (n : Nat) : Bool :=
  r.first ≤ n && n ≤ r.last && (n - r.first) % r.step == 0

/-- Where upper and lower case alternate beyond ASCII: the first letter, and how many pairs there are. -/
def casePairs : List (Nat × Nat) :=
  [
    (0x100, 24), (0x132, 3), (0x139, 8), (0x14A, 23), (0x179, 3), (0x182, 2), (0x187, 1), (0x18B, 1), (0x191, 1),
    (0x198, 1), (0x1A0, 3), (0x1A7, 1), (0x1AC, 1), (0x1AF, 1), (0x1B3, 2), (0x1B8, 1), (0x1BC, 1), (0x1C5, 1),
    (0x1C8, 1), (0x1CB, 9), (0x1DE, 9), (0x1F2, 2), (0x1F8, 20), (0x222, 9), (0x23B, 1), (0x241, 1), (0x246, 5),
    (0x370, 2), (0x376, 1), (0x3D8, 12), (0x3F7, 1), (0x3FA, 1), (0x460, 17), (0x48A, 27), (0x4C1, 7), (0x4D0, 48),
    (0x1C89, 1), (0x1E00, 75), (0x1EA0, 48), (0x2183, 1), (0x2C60, 1), (0x2C67, 3), (0x2C72, 1), (0x2C75, 1),
    (0x2C80, 50), (0x2CEB, 2), (0x2CF2, 1), (0xA640, 23), (0xA680, 14), (0xA722, 7), (0xA732, 31), (0xA779, 2),
    (0xA77E, 5), (0xA78B, 1), (0xA790, 2), (0xA796, 10), (0xA7B4, 8), (0xA7C7, 2), (0xA7CC, 8), (0xA7F5, 1)
  ]

/-- Where upper-case letters beyond ASCII stand together: the first, how many there are, and how far they move. -/
def caseBlocks : List (Nat × Nat × Int) :=
  [
    (0xC0, 23, 32), (0xD8, 7, 32), (0x130, 1, -199), (0x178, 1, -121), (0x181, 1, 210), (0x186, 1, 206),
    (0x189, 2, 205), (0x18E, 1, 79), (0x18F, 1, 202), (0x190, 1, 203), (0x193, 1, 205), (0x194, 1, 207),
    (0x196, 1, 211), (0x197, 1, 209), (0x19C, 1, 211), (0x19D, 1, 213), (0x19F, 1, 214), (0x1A6, 1, 218),
    (0x1A9, 1, 218), (0x1AE, 1, 218), (0x1B1, 2, 217), (0x1B7, 1, 219), (0x1C4, 1, 2), (0x1C7, 1, 2), (0x1CA, 1, 2),
    (0x1F1, 1, 2), (0x1F6, 1, -97), (0x1F7, 1, -56), (0x220, 1, -130), (0x23A, 1, 10795), (0x23D, 1, -163),
    (0x23E, 1, 10792), (0x243, 1, -195), (0x244, 1, 69), (0x245, 1, 71), (0x37F, 1, 116), (0x386, 1, 38),
    (0x388, 3, 37), (0x38C, 1, 64), (0x38E, 2, 63), (0x391, 17, 32), (0x3A3, 9, 32), (0x3CF, 1, 8), (0x3F4, 1, -60),
    (0x3F9, 1, -7), (0x3FD, 3, -130), (0x400, 16, 80), (0x410, 32, 32), (0x4C0, 1, 15), (0x531, 38, 48),
    (0x10A0, 38, 7264), (0x10C7, 1, 7264), (0x10CD, 1, 7264), (0x13A0, 80, 38864), (0x13F0, 6, 8), (0x1C90, 43, -3008),
    (0x1CBD, 3, -3008), (0x1E9E, 1, -7615), (0x1F08, 8, -8), (0x1F18, 6, -8), (0x1F28, 8, -8), (0x1F38, 8, -8),
    (0x1F48, 6, -8), (0x1F59, 1, -8), (0x1F5B, 1, -8), (0x1F5D, 1, -8), (0x1F5F, 1, -8), (0x1F68, 8, -8),
    (0x1F88, 8, -8), (0x1F98, 8, -8), (0x1FA8, 8, -8), (0x1FB8, 2, -8), (0x1FBA, 2, -74), (0x1FBC, 1, -9),
    (0x1FC8, 4, -86), (0x1FCC, 1, -9), (0x1FD8, 2, -8), (0x1FDA, 2, -100), (0x1FE8, 2, -8), (0x1FEA, 2, -112),
    (0x1FEC, 1, -7), (0x1FF8, 2, -128), (0x1FFA, 2, -126), (0x1FFC, 1, -9), (0x2126, 1, -7517), (0x212A, 1, -8383),
    (0x212B, 1, -8262), (0x2132, 1, 28), (0x2160, 16, 16), (0x24B6, 26, 26), (0x2C00, 48, 48), (0x2C62, 1, -10743),
    (0x2C63, 1, -3814), (0x2C64, 1, -10727), (0x2C6D, 1, -10780), (0x2C6E, 1, -10749), (0x2C6F, 1, -10783),
    (0x2C70, 1, -10782), (0x2C7E, 2, -10815), (0xA77D, 1, -35332), (0xA78D, 1, -42280), (0xA7AA, 1, -42308),
    (0xA7AB, 1, -42319), (0xA7AC, 1, -42315), (0xA7AD, 1, -42305), (0xA7AE, 1, -42308), (0xA7B0, 1, -42258),
    (0xA7B1, 1, -42282), (0xA7B2, 1, -42261), (0xA7B3, 1, 928), (0xA7C4, 1, -48), (0xA7C5, 1, -42307),
    (0xA7C6, 1, -35384), (0xA7CB, 1, -42343), (0xA7DC, 1, -42561), (0xFF21, 26, 32), (0x10400, 40, 40),
    (0x104B0, 36, 40), (0x10570, 11, 39), (0x1057C, 15, 39), (0x1058C, 7, 39), (0x10594, 2, 39), (0x10C80, 51, 64),
    (0x10D50, 22, 32), (0x118A0, 32, 32), (0x16E40, 32, 32), (0x16EA0, 25, 27), (0x1E900, 34, 34)
  ]

/-- The runs of upper-case letters beyond ASCII. -/
def caseRuns : List CaseRun :=
  casePairs.map (fun p => ⟨p.1, p.1 + 2 * (p.2 - 1), 2, 1⟩) ++
    caseBlocks.map (fun b => ⟨b.1, b.1 + (b.2.1 - 1), 1, b.2.2⟩)

/-- A character in lower case. -/
def lowerChar (c : Char) : Char :=
  if c.toNat < 0x80 then c.toLower
  else
    match caseRuns.find? fun r => r.holds c.toNat with
    | some r => Char.ofNat ((c.toNat : Int) + r.shift).toNat
    | none => c

/-- A string in lower case. -/
def lower (s : String) : String := String.ofList (s.toList.map lowerChar)

/-- A string with its ASCII letters in upper case. -/
def upperAscii (s : String) : String := String.ofList (s.toList.map Char.toUpper)

end Locomotive.Text
