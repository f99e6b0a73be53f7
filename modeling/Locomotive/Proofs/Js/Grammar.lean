import Locomotive.Js.Expr

/-!
# The operator grammar of the generated program

How a text of the generated program is read. A text is a list of symbols: characters, and
literals and names, which are taken whole (`Symbol`). Lexing (`lex`) joins characters to
the longest sign there is, so `--` is one sign and not two. The grammar (`Reads`) has the
levels of binding strength of JavaScript, from the loosest: the conditional, `|`, `^`, `&`,
comparisons, `+ -`, `* / %`, the operators before an operand, and last members, indices,
calls and atoms. Operators between two operands associate to the left, and parentheses
leave no trace in the tree.

* `Expr.symbols`: the text of generated code as symbols; `written_symbols` is the text.
* `Reading`: a text has a reading as a tree.
-/

namespace Locomotive.Js

/-- A symbol of a generated text: a character, or a literal or a name taken whole. -/
inductive Symbol where
  | char (c : Char)
  | word (text : String)
  deriving DecidableEq, Repr

/-- The characters of a symbol. -/
def Symbol.chars : Symbol → List Char
  | char c => [c]
  | word text => text.toList

/-- The characters of a list of symbols. -/
def written (ss : List Symbol) : List Char := ss.flatMap Symbol.chars

/-- A text of single characters. -/
def plain (s : String) : List Symbol := s.toList.map .char

@[simp] theorem written_nil : written [] = [] := rfl

@[simp] theorem written_cons (s : Symbol) (ss : List Symbol) :
    written (s :: ss) = s.chars ++ written ss := rfl

@[simp] theorem written_append (a b : List Symbol) : written (a ++ b) = written a ++ written b := by
  simp [written]

@[simp] theorem written_plain (s : String) : written (plain s) = s.toList := by
  rw [written, plain, List.flatMap_map]
  exact List.flatMap_singleton' s.toList

namespace Expr

mutual

/-- The text of an expression as symbols: literals and names are whole. -/
def symbols : Expr → List Symbol
  | atom t => [.word t]
  | site i => plain (siteMark i)
  | selected i _ => plain (siteMark i)
  | element a is => .word a :: bracketedSymbols is
  | call f args => .word f :: plain "(" ++ listSymbols args ++ plain ")"
  | method r name args =>
    r.symbols ++ plain "." ++ .word name :: plain "(" ++ listSymbols args ++ plain ")"
  | property r name => r.symbols ++ plain "." ++ [.word name]
  | unary op x => plain op.text ++ x.symbols
  | binary op l r => l.symbols ++ plain " " ++ plain op.text ++ plain " " ++ r.symbols
  | compare op l r => l.symbols ++ plain " " ++ plain op.text ++ plain " " ++ r.symbols
  | truth op l r =>
    plain "(" ++ l.symbols ++ plain " " ++ plain op.text ++ plain " " ++ r.symbols ++
      plain " ? -" ++ .word "1" :: plain " : " ++ .word "0" :: plain ")"
  | paren x => plain "(" ++ x.symbols ++ plain ")"
  | array xs => plain "[" ++ listSymbols xs ++ plain "]"
  | directive kind args =>
    plain ("\x7btype: \"" ++ kind ++ "\", args: [") ++ listSymbols args ++ plain "]\x7d"

/-- The texts of a list of expressions with commas between them. -/
def listSymbols : List Expr → List Symbol
  | [] => []
  | [e] => e.symbols
  | e :: e' :: es => e.symbols ++ plain ", " ++ listSymbols (e' :: es)

/-- The texts of a list of indices, each between brackets. -/
def bracketedSymbols : List Expr → List Symbol
  | [] => []
  | e :: es => plain "[" ++ e.symbols ++ plain "]" ++ bracketedSymbols es

end

mutual

/-- **The symbols of an expression spell its text.** -/
theorem written_symbols : ∀ e : Expr, written e.symbols = e.text.toList
  | atom _ => by simp [symbols, text, Symbol.chars]
  | site _ => by simp [symbols, text]
  | selected _ _ => by simp [symbols, text]
  | element a is => by simp [symbols, text, Symbol.chars, written_bracketed is]
  | call f args => by simp [symbols, text, Symbol.chars, written_list args]
  | method r name args => by
    simp [symbols, text, Symbol.chars, written_symbols r, written_list args]
  | property r name => by simp [symbols, text, Symbol.chars, written_symbols r]
  | unary op x => by simp [symbols, text, written_symbols x]
  | binary op l r => by simp [symbols, text, written_symbols l, written_symbols r]
  | compare op l r => by simp [symbols, text, written_symbols l, written_symbols r]
  | truth op l r => by simp [symbols, text, Symbol.chars, written_symbols l, written_symbols r]
  | paren x => by simp [symbols, text, written_symbols x]
  | array xs => by simp [symbols, text, written_list xs]
  | directive kind args => by simp [symbols, text, written_list args]

theorem written_list : ∀ es : List Expr,
    written (listSymbols es) = (", ".intercalate (texts es)).toList
  | [] => by simp [listSymbols, texts]
  | [e] => by simp [listSymbols, texts, written_symbols e]
  | e :: e' :: es => by
    have ih := written_list (e' :: es)
    simp only [texts] at ih
    simp [listSymbols, texts, written_symbols e, ih, List.intercalate]

theorem written_bracketed : ∀ es : List Expr,
    written (bracketedSymbols es) = (String.join (bracketed es)).toList
  | [] => by simp [bracketedSymbols, bracketed]
  | e :: es => by
    have ih := written_bracketed es
    rw [String.toList_join] at ih
    simp [bracketedSymbols, bracketed, written_symbols e, ih]

end

end Expr

/-! ## Lexing -/

/-- What a text is made of once its characters are joined. -/
inductive Lexeme where
  | word (text : String)
  | await
  | sign (cs : List Char)
  deriving DecidableEq, Repr

/-- The signs of the language, and the two that open comments. -/
def signs : List String :=
  ["\x7b", "\x7d", "(", ")", "[", "]", ".", "..", "...", ";", ",", "<", ">", "<=", ">=", "==", "!=", "===",
    "!==", "+", "-", "*", "/", "%", "**", "++", "--", "<<", ">>", ">>>", "&", "|", "^", "!", "~",
    "&&", "||", "??", "?", "?.", ":", "=", "+=", "-=", "*=", "/=", "%=", "**=", "<<=", ">>=",
    ">>>=", "&=", "|=", "^=", "&&=", "||=", "??=", "=>", "//", "/*"]

/-- The characters are a sign. -/
def isSign (cs : List Char) : Bool := signs.contains (String.ofList cs)

/-- What has been read of a lexeme that may go on. -/
inductive Pending where
  | nothing
  /-- A word, which ends where no other word follows. -/
  | word (text : String)
  | letters (cs : List Char)
  | sign (cs : List Char)
  deriving DecidableEq, Repr

namespace Pending

/-- The lexeme that ends here. -/
def lexemes : Pending → List Lexeme
  | nothing => []
  | word text => [.word text]
  | letters cs => [if cs = "await".toList then .await else .word (String.ofList cs)]
  | sign cs => [.sign cs]

/-- The next symbol: the lexemes that end before it, and what is pending after it. A sign
goes on as long as there is such a sign; two words have to be apart. -/
def step : Pending → Symbol → Option (List Lexeme × Pending)
  | word _, .word _ => none
  | letters _, .word _ => none
  | p, .word text => some (p.lexemes, word text)
  | p, .char c =>
    if c = ' ' then some (p.lexemes, nothing)
    else if c.isAlphanum then
      match p with
      | word _ => none
      | letters cs => some ([], letters (cs ++ [c]))
      | p => some (p.lexemes, letters [c])
    else
      match p with
      | sign cs =>
        if isSign (cs ++ [c]) then some ([], sign (cs ++ [c]))
        else if isSign [c] then some ([.sign cs], sign [c])
        else none
      | p => if isSign [c] then some (p.lexemes, sign [c]) else none

/-- The lexemes that end in a text, and what is pending after it. -/
def run : Pending → List Symbol → Option (List Lexeme × Pending)
  | p, [] => some ([], p)
  | p, s :: ss => do
    let (done, q) ← p.step s
    let (more, r) ← q.run ss
    pure (done ++ more, r)

end Pending

/-- The lexemes of a text. -/
def lex (ss : List Symbol) : Option (List Lexeme) := do
  let (done, p) ← Pending.nothing.run ss
  pure (done ++ p.lexemes)

/-! ## Trees and levels -/

/-- An operator between two operands. -/
inductive Operator where
  | arith (op : BinaryOp)
  | compare (op : Comparison)
  deriving DecidableEq, Repr

/-- The characters of an operator between two operands. -/
def Operator.chars : Operator → List Char
  | arith op => op.text.toList
  | compare op => op.text.toList

/-- The lexeme of an operator before an operand. -/
def UnaryOp.lexeme : UnaryOp → Lexeme
  | neg => .sign ['-']
  | bitNot => .sign ['~']
  | await => .await

/-- What an expression says, without parentheses. -/
inductive Tree where
  | word (text : String)
  | member (object : Tree) (name : String)
  | index (object place : Tree)
  | call (f : Tree) (args : List Tree)
  | unary (op : UnaryOp) (operand : Tree)
  | binary (op : Operator) (left right : Tree)
  /-- The conditional `test ? yes : no`. -/
  | choice (test yes no : Tree)
  deriving Repr

/-- The levels of binding strength, from the loosest. -/
inductive Level where
  | whole
  | or
  | xor
  | and
  | comparison
  | sum
  | product
  | sign
  | member
  deriving DecidableEq, Repr

namespace Level

/-- The place of a level, counted from the tightest. -/
def rank : Level → Nat
  | whole => 8
  | or => 7
  | xor => 6
  | and => 5
  | comparison => 4
  | sum => 3
  | product => 2
  | sign => 1
  | member => 0

/-- The next tighter level. -/
def tighter : Level → Level
  | whole => or
  | or => xor
  | xor => and
  | and => comparison
  | comparison => sum
  | sum => product
  | product => sign
  | sign => member
  | member => member

end Level

/-- The level of an operator between two operands. -/
def Operator.level : Operator → Level
  | arith .bitOr => .or
  | arith .bitXor => .xor
  | arith .bitAnd => .and
  | compare _ => .comparison
  | arith .add => .sum
  | arith .sub => .sum
  | arith .mul => .product
  | arith .div => .product
  | arith .rem => .product

/-! ## The grammar -/

/-- Lists of lexemes with commas between them. -/
def commas : List (List Lexeme) → List Lexeme
  | [] => []
  | [w] => w
  | w :: w' :: ws => w ++ .sign [','] :: commas (w' :: ws)

/-- **The grammar.** A list of lexemes is read at a level as a tree. -/
inductive Reads : Level → List Lexeme → Tree → Prop
  | looser {l : Level} {u : List Lexeme} {t : Tree} : Reads l.tighter u t → Reads l u t
  | choice {c y n : List Lexeme} {test yes no : Tree} :
    Reads .or c test → Reads .whole y yes → Reads .whole n no →
    Reads .whole (c ++ .sign ['?'] :: (y ++ .sign [':'] :: n)) (.choice test yes no)
  | binary {op : Operator} {a b : List Lexeme} {left right : Tree} :
    Reads op.level a left → Reads op.level.tighter b right →
    Reads op.level (a ++ .sign op.chars :: b) (.binary op left right)
  | unary {op : UnaryOp} {u : List Lexeme} {t : Tree} :
    Reads .sign u t → Reads .sign (op.lexeme :: u) (.unary op t)
  | member {u : List Lexeme} {t : Tree} {name : String} :
    Reads .member u t → Reads .member (u ++ [.sign ['.'], .word name]) (.member t name)
  | index {u w : List Lexeme} {t i : Tree} :
    Reads .member u t → Reads .whole w i →
    Reads .member (u ++ .sign ['['] :: (w ++ [.sign [']']])) (.index t i)
  | call {u : List Lexeme} {t : Tree} {args : List (List Lexeme × Tree)} :
    Reads .member u t → (∀ a ∈ args, Reads .whole a.1 a.2) →
    Reads .member (u ++ .sign ['('] :: (commas (args.map Prod.fst) ++ [.sign [')']]))
      (.call t (args.map Prod.snd))
  | paren {u : List Lexeme} {t : Tree} :
    Reads .whole u t → Reads .member (.sign ['('] :: (u ++ [.sign [')']])) t
  | word {text : String} : Reads .member [.word text] (.word text)

/-- **A text has a reading as a tree.** -/
def Reading (ss : List Symbol) (t : Tree) : Prop := ∃ u, lex ss = some u ∧ Reads .whole u t

end Locomotive.Js
