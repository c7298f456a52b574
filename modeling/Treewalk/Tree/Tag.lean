/-!
The grammar of parse trees has eleven forms. Each is known by its spelling in
the tree; any other spelling is outside the grammar.
-/
namespace Treewalk

inductive Tag where
  | block
  | read
  | declare
  | label
  | goto
  | store
  | number
  | text
  | branch
  | function
  | call
deriving DecidableEq

namespace Tag

def all : List Tag :=
  [block, read, declare, label, goto, store, number, text, branch, function, call]

def spelling : Tag → String
  | block => "begin"
  | read => "var"
  | declare => "def"
  | label => "label"
  | goto => "goto"
  | store => "set"
  | number => "number"
  | text => "string"
  | branch => "if"
  | function => "function"
  | call => "call"

def ofSpelling? (word : String) : Option Tag :=
  all.find? fun tag => tag.spelling == word

def index (tag : Tag) : Nat := all.idxOf tag

theorem mem_all (tag : Tag) : tag ∈ all := by
  cases tag <;> decide

@[simp] theorem ofSpelling?_spelling (tag : Tag) : ofSpelling? tag.spelling = some tag := by
  cases tag <;> decide

theorem spelling_injective {s t : Tag} (h : s.spelling = t.spelling) : s = t := by
  have := congrArg ofSpelling? h
  simpa using this

theorem spelling_of_ofSpelling? {word : String} {tag : Tag}
    (h : ofSpelling? word = some tag) : tag.spelling = word := by
  simpa using List.find?_some h

end Tag

end Treewalk
