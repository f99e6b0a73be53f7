import Locomotive.Expr.Parse

/-!
# The grammar of expressions

Which expressions there are, and which tokens spell them. An expression is well formed if
every node of it (`Expr.Within`) respects the layers of binding strength (`Expr.InOrder`),
has operands and arguments of the right types (`Expr.TypesFit`), and takes no function name
for a variable (`Expr.NamesFit`). Tokens spell an expression (`Spells`) if they are its
leaves and operators in order; brackets, the word `FN` and empty argument lists leave a
choice.
-/

namespace Locomotive

open Parse (Layer)

/-! ## Layers and types -/

/-- The layer of an operator between two operands. -/
def BinaryOp.layer : BinaryOp → Layer
  | xor => .exclusive
  | or => .disjunction
  | and => .conjunction
  | eq | ne | lt | gt | le | ge => .comparison
  | add | sub => .sum
  | mod => .modulo
  | intDiv => .intDiv
  | mul | div => .product
  | pow => .power
  | other _ => .primary

/-- The layer of an operator before an operand. -/
def UnaryOp.layer : UnaryOp → Layer
  | not => .negation
  | neg | plus => .sign
  | other _ => .primary

/-- The types of operands that an operator takes: two of the same type for `+` and the
comparisons, two numbers for all else. -/
def BinaryOp.Takes (op : BinaryOp) (left right : Ty) : Prop :=
  match op with
  | add | eq | ne | lt | gt | le | ge => left = right
  | other _ => False
  | _ => left = .number ∧ right = .number

/-- The type of operand that an operator before it takes. -/
def UnaryOp.Takes : UnaryOp → Ty → Prop
  | other _, _ => False
  | _, operand => operand = .number

namespace Builtin

/-- A call shape admits arguments of these types: there are enough of them and not too
many, and each has the type of its parameter, or of the last one if that is repeated. -/
def Signature.Admits (s : Signature) (tys : List Ty) : Prop :=
  s.required ≤ tys.length ∧ (tys.length ≤ s.params.length ∨ s.repeated = true) ∧
    ∀ (i : Nat) ty want, tys[i]? = some ty → s.params[i]?.or s.params.getLast? = some (some want) → ty = want

/-- A function takes arguments of these types. -/
def Takes (f : Builtin) (tys : List Ty) : Prop :=
  match f with
  | instr => tys = [.string, .string] ∨ tys = [.number, .string, .string]
  | other _ => False
  | f => f.signature.Admits tys

end Builtin

/-! ## Well-formed expressions -/

namespace Expr

/-- The layer of an expression: that of its outermost operator. -/
def layer : Expr → Layer
  | binary op _ _ => op.layer
  | unary op _ => op.layer
  | _ => .primary

/-- The expressions that an expression is made of. -/
def children : Expr → List Expr
  | index _ is => is
  | binary _ l r => [l, r]
  | unary _ e => [e]
  | paren e => [e]
  | call _ args => args
  | fn _ args => args
  | _ => []

/-- The expression is a node of another. -/
inductive Within : Expr → Expr → Prop
  | self {e : Expr} : Within e e
  | child {n c e : Expr} : c ∈ e.children → Within n c → Within n e

/-- All nodes of an expression have a property if the top has it and its parts have it at all of theirs. -/
theorem forall_within_iff {P : Expr → Prop} {e : Expr} :
    (∀ n, Within n e → P n) ↔ P e ∧ ∀ c ∈ e.children, ∀ n, Within n c → P n := by
  constructor
  · exact fun h => ⟨h e .self, fun c hc n hn => h n (.child hc hn)⟩
  · rintro ⟨hp, hc⟩ n (_ | ⟨hm, hn⟩)
    · exact hp
    · exact hc _ hm n hn

/-- Operands bind tighter than the operator, or as tight: to the left of an operator
between two operands, which therefore associates to the left, and after one before it. -/
def InOrder : Expr → Prop
  | binary op l r => l.layer.rank ≤ op.layer.rank ∧ r.layer.rank < op.layer.rank
  | unary op e => e.layer.rank ≤ op.layer.rank
  | _ => True

/-- Operands, indices and arguments have the types that they need to have. -/
def TypesFit : Expr → Prop
  | index _ is => ∀ i ∈ is, i.type = .number
  | binary op l r => op.Takes l.type r.type
  | unary op e => op.Takes e.type
  | call f args => f.Takes (args.map type)
  | missing => False
  | _ => True

/-- Variables and arrays do not have the name of a function. -/
def NamesFit : Expr → Prop
  | var name => Parse.isFnName name = false
  | index name _ => Parse.isFnName name = false
  | _ => True

/-- Every node is in order, of fitting types and of a fitting name. -/
structure WellFormed (e : Expr) : Prop where
  layers : ∀ n, Within n e → n.InOrder
  types : ∀ n, Within n e → n.TypesFit
  names : ∀ n, Within n e → n.NamesFit

/-- An expression is well formed if it is at its top and in its parts. -/
theorem wellFormed_iff {e : Expr} :
    e.WellFormed ↔ e.InOrder ∧ e.TypesFit ∧ e.NamesFit ∧ ∀ c ∈ e.children, c.WellFormed := by
  constructor
  · rintro ⟨hl, ht, hn⟩
    rw [forall_within_iff] at hl ht hn
    exact ⟨hl.1, ht.1, hn.1, fun c hc => ⟨hl.2 c hc, ht.2 c hc, hn.2 c hc⟩⟩
  · rintro ⟨hl, ht, hn, hc⟩
    refine ⟨forall_within_iff.2 ⟨hl, ?_⟩, forall_within_iff.2 ⟨ht, ?_⟩, forall_within_iff.2 ⟨hn, ?_⟩⟩
    · exact fun c h => (hc c h).layers
    · exact fun c h => (hc c h).types
    · exact fun c h => (hc c h).names

theorem WellFormed.child {e c : Expr} (h : e.WellFormed) (hc : c ∈ e.children) : c.WellFormed :=
  (wellFormed_iff.1 h).2.2.2 c hc

/-- Variables and arrays do not have the name of a function, and functions have, or an empty one. -/
def NameApart : Expr → Prop
  | var name => Parse.isFnName name = false
  | index name _ => Parse.isFnName name = false
  | fn name _ => Parse.isFnName name = true ∨ name = "fn"
  | _ => True

theorem NameApart.namesFit {e : Expr} (h : e.NameApart) : e.NamesFit := by
  cases e <;> first | exact h | trivial

/-- **No name of the expression is that of a variable and of a function.** -/
def Apart (e : Expr) : Prop := ∀ n, Within n e → n.NameApart

theorem apart_iff {e : Expr} : e.Apart ↔ e.NameApart ∧ ∀ c ∈ e.children, c.Apart := forall_within_iff

end Expr

/-! ## Spelling -/

namespace Token

/-- The token writes an operator between two operands. -/
def Writes (t : Token) : BinaryOp → Prop
  | .xor => t.isWord "XOR" = true
  | .or => t.isWord "OR" = true
  | .and => t.isWord "AND" = true
  | .eq => t.kind = .equals
  | .ne => t.kind = .notEqual
  | .lt => t.kind = .less
  | .gt => t.kind = .greater
  | .le => t.kind = .lessEqual
  | .ge => t.kind = .greaterEqual
  | .add => t.kind = .plus ∧ t.lexeme = "+"
  | .sub => t.kind = .minus ∧ t.lexeme = "-"
  | .mod => t.isWord "MOD" = true
  | .intDiv => t.kind = .backslash
  | .mul => t.kind = .star
  | .div => t.kind = .slash
  | .pow => t.kind = .caret
  | .other _ => False

/-- The token writes an operator before an operand. -/
def WritesBefore (t : Token) : UnaryOp → Prop
  | .not => t.isWord "NOT" = true
  | .neg => t.kind = .minus ∧ t.lexeme = "-"
  | .plus => t.kind = .plus ∧ t.lexeme = "+"
  | .other _ => False

/-- A plus or minus sign carries its own text. -/
def Signed (t : Token) : Prop := (t.kind = .plus → t.lexeme = "+") ∧ (t.kind = .minus → t.lexeme = "-")

/-- The token can continue an expression that has ended: it is an operator between two
operands, or opens indices or arguments. -/
def Continues (t : Token) : Prop :=
  t.kind ∈ [.lparen, .lbracket, .equals, .notEqual, .less, .greater, .lessEqual, .greaterEqual, .plus,
      .minus, .backslash, .star, .slash, .caret] ∨
    t.isWord "XOR" = true ∨ t.isWord "OR" = true ∨ t.isWord "AND" = true ∨ t.isWord "MOD" = true

instance (t : Token) : Decidable t.Signed := inferInstanceAs (Decidable (_ ∧ _))

instance (t : Token) : Decidable t.Continues := inferInstanceAs (Decidable (_ ∨ _))

end Token

/-- Lists of tokens with commas between them. -/
inductive Commas : List (List Token) → List Token → Prop
  | one {w : List Token} : Commas [w] w
  | more {w v : List Token} {ws : List (List Token)} {c : Token} :
    c.kind = .comma → Commas ws v → Commas (w :: ws) (w ++ c :: v)

/-- The arguments of a call: nothing, or a list in parentheses, which may be empty. -/
inductive Arguments : List (List Token) → List Token → Prop
  | omitted : Arguments [] []
  | empty {o c : Token} : o.kind = .lparen → c.kind = .rparen → Arguments [] [o, c]
  | listed {o c : Token} {ws : List (List Token)} {v : List Token} : o.kind = .lparen → c.kind = .rparen →
    Commas ws v → Arguments ws (o :: (v ++ [c]))

/-- The tokens of a member are among those of the list. -/
theorem Commas.mem {ws : List (List Token)} {v : List Token} (h : Commas ws v) : ∀ w ∈ ws, ∀ t ∈ w, t ∈ v := by
  induction h with
  | one => simp
  | @more w v ws c _ _ ih =>
    intro w' hw' t ht
    rcases List.mem_cons.1 hw' with rfl | hw'
    · exact List.mem_append_left _ ht
    · exact List.mem_append_right _ (List.mem_cons_of_mem _ (ih w' hw' t ht))

theorem Arguments.mem {ws : List (List Token)} {v : List Token} (h : Arguments ws v) :
    ∀ w ∈ ws, ∀ t ∈ w, t ∈ v := by
  intro w hw t ht
  cases h with
  | omitted => exact absurd hw (by simp)
  | empty => exact absurd hw (by simp)
  | listed _ _ hc => exact List.mem_cons_of_mem _ (List.mem_append_left _ (hc.mem w hw t ht))

/-- The two tokens are parentheses or brackets. -/
def Brackets (o c : Token) : Prop :=
  o.kind = .lparen ∧ c.kind = .rparen ∨ o.kind = .lbracket ∧ c.kind = .rbracket

/-- **Spelling.** The tokens spell the expression. -/
inductive Spells : List Token → Expr → Prop
  | number {t : Token} {radix : Radix} : Parse.radix? t.kind = some radix →
    Spells [t] (.number radix t.lexeme t.line)
  | string {t : Token} : t.kind = .string → Spells [t] (.string t.lexeme)
  | var {t : Token} : t.kind = .identifier → Spells [t] (.var t.lexeme)
  | index {t o c : Token} {is : List (List Token × Expr)} {v : List Token} : t.kind = .identifier →
    Brackets o c → Commas (is.map Prod.fst) v → (∀ i ∈ is, Spells i.1 i.2) →
    Spells (t :: o :: (v ++ [c])) (.index t.lexeme (is.map Prod.snd))
  | binary {t : Token} {op : BinaryOp} {a b : List Token} {l r : Expr} : t.Writes op → Spells a l →
    Spells b r → Spells (a ++ t :: b) (.binary op l r)
  | unary {t : Token} {op : UnaryOp} {u : List Token} {e : Expr} : t.WritesBefore op → Spells u e →
    Spells (t :: u) (.unary op e)
  | paren {o c : Token} {u : List Token} {e : Expr} : o.kind = .lparen → c.kind = .rparen → Spells u e →
    Spells (o :: (u ++ [c])) (.paren e)
  | call {t : Token} {f : Builtin} {args : List (List Token × Expr)} {v : List Token} : t.kind = .keyword →
    f ∈ Builtin.all → t.lexeme = f.name → Arguments (args.map Prod.fst) v → (∀ a ∈ args, Spells a.1 a.2) →
    Spells (t :: v) (.call f (args.map Prod.snd))
  | fnName {t : Token} {args : List (List Token × Expr)} {v : List Token} : t.kind = .identifier →
    Parse.isFnName t.lexeme = true → Arguments (args.map Prod.fst) v → (∀ a ∈ args, Spells a.1 a.2) →
    Spells (t :: v) (.fn t.lexeme (args.map Prod.snd))
  | fnWord {t n : Token} {args : List (List Token × Expr)} {v : List Token} : t.isWord "FN" = true →
    n.kind = .identifier → Arguments (args.map Prod.fst) v → (∀ a ∈ args, Spells a.1 a.2) →
    Spells (t :: n :: v) (.fn ("fn" ++ n.lexeme) (args.map Prod.snd))

end Locomotive
