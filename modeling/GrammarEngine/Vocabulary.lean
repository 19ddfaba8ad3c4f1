import GrammarEngine.Text.Quoted

/-!
# Token vocabularies

A vocabulary lists token types with their symbolic names and, where a token has a single spelling,
that literal. The first entry of a type or of a name answers for it. The type of the end of the
input is fixed and needs no entry.
-/
namespace GrammarEngine

/-- The number that identifies a kind of token. -/
abbrev TokenType := Int32

namespace TokenType

/-- The type of the token at the end of every input. -/
def eof : TokenType := -1

end TokenType

/-- The symbolic name of the end of the input. -/
def eofName : String := "EOF"

structure TokenEntry where
  type : TokenType
  symbolic : String
  literal : Option String
deriving Repr, DecidableEq

structure Vocabulary where
  entries : List TokenEntry := []
deriving Repr, DecidableEq, Inhabited

namespace Vocabulary

def size (v : Vocabulary) : Nat := v.entries.length

def entry? (v : Vocabulary) (t : TokenType) : Option TokenEntry :=
  v.entries.find? fun e => e.type == t

def symbolicName? (v : Vocabulary) (t : TokenType) : Option String :=
  if t == TokenType.eof then some eofName else (v.entry? t).map TokenEntry.symbolic

/-- The literal of a token type in single quotes. -/
def literalName? (v : Vocabulary) (t : TokenType) : Option String :=
  (v.entry? t).bind fun e => e.literal.map fun s => "'" ++ Text.escape s ++ "'"

/-- The literal of a token type, else its symbolic name, else its number. -/
def displayName (v : Vocabulary) (t : TokenType) : String :=
  match v.literalName? t with
  | some name => name
  | none => (v.symbolicName? t).getD (toString t.toInt)

def tokenType? (v : Vocabulary) (symbolic : String) : Option TokenType :=
  if symbolic == eofName then some TokenType.eof
  else (v.entries.find? fun e => e.symbolic == symbolic).map TokenEntry.type

/-- The greatest token type, zero without entries. -/
def maxType (v : Vocabulary) : TokenType :=
  match v.entries with
  | [] => 0
  | e :: rest => rest.foldl (fun m e => if m < e.type then e.type else m) e.type

end Vocabulary

end GrammarEngine
