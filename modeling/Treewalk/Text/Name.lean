/-!
Names of bindings, labels and functions, and lists of them. A name is any text. Two names
are ordered by code points, which is also the order of their UTF-8 bytes. A list of
parameters is written as names between commas. Blanks around a name do not count, and an
entry with nothing else in it names no parameter.
-/
namespace Treewalk

abbrev Name := String

namespace Name

def quoted (name : Name) : String := "`" ++ name ++ "`"

def byteCount (name : Name) : Nat := name.utf8ByteSize

def order (a b : Name) : Ordering := compareOfLessAndEq a b

end Name

/-- The Unicode property White_Space. -/
def isBlank (c : Char) : Bool :=
  let n := c.toNat
  (0x9 ≤ n && n ≤ 0xD) || n == 0x20 || n == 0x85 || n == 0xA0 || n == 0x1680 ||
    (0x2000 ≤ n && n ≤ 0x200A) || n == 0x2028 || n == 0x2029 || n == 0x202F ||
    n == 0x205F || n == 0x3000

def trimStart (cs : List Char) : List Char := cs.dropWhile isBlank

def trimEnd (cs : List Char) : List Char := (cs.reverse.dropWhile isBlank).reverse

def trimmed (cs : List Char) : List Char := trimEnd (trimStart cs)

/-- The pieces between the separators; one more than there are separators. -/
def fields (separator : Char) : List Char → List (List Char)
  | [] => [[]]
  | c :: cs =>
    if c = separator then [] :: fields separator cs
    else match fields separator cs with
      | [] => [[c]]
      | field :: rest => (c :: field) :: rest

def parameters (text : String) : List Name :=
  (((fields ',' text.toList).map trimmed).filter fun field => !field.isEmpty).map String.ofList

theorem fields_ne_nil (separator : Char) (cs : List Char) : fields separator cs ≠ [] := by
  cases cs with
  | nil => simp [fields]
  | cons c cs =>
    simp only [fields]
    split
    · simp
    · split <;> simp

end Treewalk
