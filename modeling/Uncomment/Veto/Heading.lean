import Uncomment.Text.Blank
import Uncomment.Text.Letter
import Uncomment.Text.Utf8

/-!
# Headings

Some comments structure a file rather than explain it: dividers, numbered
headings, headings in capitals, lines with an emoji or a bullet.  `isStructural`
recognises them from the text of the comment, which starts with its number sign.
-/

namespace Uncomment
namespace Heading

/-- The character sequences that divide sections. -/
def separators : List Bytes :=
  ["===", "---", "***", "###", "~~~"].map Bytes.ofString

/-- The bullets and arrows that mark a short heading. -/
def bullets : List Char :=
  ['→', '•', '★', '▶', '◆', '■', '▲', '►']

/-- Words in capitals that mark a remark and no heading. -/
def remarks : List Bytes :=
  ["TODO", "FIXME", "HACK", "NOTE", "WARNING"].map Bytes.ofString

/-- The ranges of code points that count as emoji. -/
def emojiRanges : List (Nat × Nat) :=
  [(0x1F600, 0x1F64F), (0x1F300, 0x1F5FF), (0x1F680, 0x1F6FF), (0x2600, 0x26FF),
   (0x2700, 0x27BF), (0x1F900, 0x1F9FF)]

/-- Whether a text has an emoji. -/
def containsEmoji (text : Bytes) : Bool :=
  (Utf8.decode text).any fun c => Letter.inRanges emojiRanges c.toNat

/-- Whether a text is a heading in capitals: short, all its letters capitals, and no remark. -/
def isShouted (body : Bytes) : Bool :=
  let cs := Utf8.decode body
  let letters := cs.filter Letter.isLetter
  3 ≤ cs.length && cs.length ≤ 20 && !letters.isEmpty && letters.all Letter.isCapital &&
    !remarks.any fun word => Bytes.contains word body

/-- The text of a comment without its number sign and the white space around it. -/
def body (comment : Bytes) : Bytes :=
  match Blank.trim comment with
  | [] => []
  | b :: rest => if b == Byte.hash then Blank.trim rest else b :: rest

/-- Whether a comment reads as a heading or a divider. -/
def isStructural (comment : Bytes) : Bool :=
  let text := body comment
  !text.isEmpty &&
    (containsEmoji text ||
      separators.any (fun mark => Bytes.contains mark text) ||
      (text.head?).any Byte.isDigit ||
      ((Utf8.decode text).length ≤ 15 && (Utf8.decode text).any (List.elem · bullets)) ||
      isShouted text)

end Heading
end Uncomment
