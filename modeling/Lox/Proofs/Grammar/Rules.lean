/-
The grammar, as data.

`rules` is the grammar as one would print it, with a body for each nonterminal, and
`Form.Derives` says which words of token kinds a body derives.  Neither knows of a
parser or of trees, and the dangling `else` is as ambiguous here as it is on paper.

The two conditions that a context free grammar leaves to the text beside it are part
of the rules: lists of parameters and of arguments are repetitions with a limit, and
what can hold a `return` exists twice, once for inside of functions and once for
outside.

`Form.Holds` reads a body with any meaning for the nonterminals.  What holds in a
meaning that agrees with the rules is all that is derived, which is how derivations
are taken apart.
-/
import Lox.Proofs.Grammar.Programs

namespace Lox

/-! ### Bodies of rules -/

/-- The names of the grammar.  Where `return` matters, it is said if a function encloses them. -/
inductive Nonterminal where
  | program
  | declaration (insideFunction : Bool)
  | function | parameters | varDeclaration
  | statement (insideFunction : Bool)
  | forLoop (insideFunction : Bool)
  | conditional (insideFunction : Bool)
  | print | return_
  | loop (insideFunction : Bool)
  | block (insideFunction : Bool)
  | expressionStatement
  | expression | assignment
  | logicOr | logicAnd | equality | comparison | term | factor
  | unary | call | arguments | primary

/-- The body of a rule. -/
inductive Form where
  | terminal (accepts : Token.Kind → Bool)
  | part (n : Nonterminal)
  | empty
  | seq (first second : Form)
  | either (left right : Form)
  /-- Any number of times. -/
  | many (body : Form)
  /-- At most so many times. -/
  | upTo (count : Nat) (body : Form)

namespace Form

/-- A token of one of these kinds. -/
def oneOf (kinds : List Token.Kind) : Form := terminal fun kind => kinds.contains kind

def symbol (s : Symbol) : Form := oneOf [.symbol s]

def keyword (k : Keyword) : Form := oneOf [.keyword k]

def identifier : Form := oneOf [.identifier]

def number : Form := terminal fun | .number _ => true | _ => false

def string : Form := terminal fun | .string _ => true | _ => false

def optional (body : Form) : Form := either body empty

/-- One after the other. -/
def sequence : List Form → Form
  | [] => empty
  | [form] => form
  | form :: more => seq form (sequence more)

/-- One of these, or else the last. -/
def choice (last : Form) : List Form → Form
  | [] => last
  | form :: more => either form (choice last more)

/-- Operands with operators between them. -/
def joined (operators : List Token.Kind) (operand : Form) : Form :=
  seq operand (many (seq (oneOf operators) operand))

/-- At least one element and at most `maxArity`, with commas between them. -/
def listOf (element : Form) : Form :=
  seq element (upTo (maxArity - 1) (seq (symbol .comma) element))

end Form

open Form in
/-- The body of each rule. -/
def rules : Nonterminal → Form
  | .program => many (part (.declaration false))
  | .declaration f => choice (part (.statement f)) [part .function, part .varDeclaration]
  | .function => sequence [keyword .fun_, identifier, symbol .leftParen,
      optional (part .parameters), symbol .rightParen, part (.block true)]
  | .parameters => listOf identifier
  | .varDeclaration => sequence [keyword .var_, identifier,
      optional (seq (symbol .equal) (part .expression)), symbol .semicolon]
  | .statement false => choice (part .expressionStatement) [part (.forLoop false),
      part (.conditional false), part .print, part (.loop false), part (.block false)]
  | .statement true => choice (part .expressionStatement) [part (.forLoop true),
      part (.conditional true), part .print, part .return_, part (.loop true), part (.block true)]
  | .forLoop f => sequence [keyword .for_, symbol .leftParen,
      choice (symbol .semicolon) [part .varDeclaration, part .expressionStatement],
      optional (part .expression), symbol .semicolon, optional (part .expression),
      symbol .rightParen, part (.statement f)]
  | .conditional f => sequence [keyword .if_, symbol .leftParen, part .expression,
      symbol .rightParen, part (.statement f),
      optional (seq (keyword .else_) (part (.statement f)))]
  | .print => sequence [keyword .print_, part .expression, symbol .semicolon]
  | .return_ => sequence [keyword .return_, optional (part .expression), symbol .semicolon]
  | .loop f => sequence [keyword .while_, symbol .leftParen, part .expression,
      symbol .rightParen, part (.statement f)]
  | .block f => sequence [symbol .leftBrace, many (part (.declaration f)), symbol .rightBrace]
  | .expressionStatement => seq (part .expression) (symbol .semicolon)
  | .expression => part .assignment
  | .assignment => either (sequence [identifier, symbol .equal, part .assignment]) (part .logicOr)
  | .logicOr => joined [.keyword .or_] (part .logicAnd)
  | .logicAnd => joined [.keyword .and_] (part .equality)
  | .equality => joined [.symbol .bangEqual, .symbol .equalEqual] (part .comparison)
  | .comparison => joined [.symbol .greater, .symbol .greaterEqual, .symbol .less,
      .symbol .lessEqual] (part .term)
  | .term => joined [.symbol .minus, .symbol .plus] (part .factor)
  | .factor => joined [.symbol .star, .symbol .slash] (part .unary)
  | .unary => either (seq (oneOf [.symbol .bang, .symbol .minus]) (part .unary)) (part .call)
  | .call => seq (part .primary) (many (sequence [symbol .leftParen, optional (part .arguments),
      symbol .rightParen]))
  | .arguments => listOf (part .expression)
  | .primary => choice (sequence [symbol .leftParen, part .expression, symbol .rightParen])
      [number, string, keyword .true_, keyword .false_, keyword .nil_, identifier]

namespace Form

/-! ### Derivations -/

/-- The word of token kinds is derived from the body. -/
inductive Derives : Form → List Token.Kind → Prop where
  | terminal {accepts : Token.Kind → Bool} {kind : Token.Kind} (h : accepts kind = true) :
      Derives (.terminal accepts) [kind]
  | part {n : Nonterminal} {w : List Token.Kind} (h : Derives (rules n) w) : Derives (.part n) w
  | empty : Derives .empty []
  | seq {a b : Form} {v w : List Token.Kind} (ha : Derives a v) (hb : Derives b w) :
      Derives (.seq a b) (v ++ w)
  | left {a b : Form} {w : List Token.Kind} (h : Derives a w) : Derives (.either a b) w
  | right {a b : Form} {w : List Token.Kind} (h : Derives b w) : Derives (.either a b) w
  | done {a : Form} : Derives (.many a) []
  | again {a : Form} {v w : List Token.Kind} (h : Derives a v) (hmore : Derives (.many a) w) :
      Derives (.many a) (v ++ w)
  | enough {a : Form} {n : Nat} : Derives (.upTo n a) []
  | oneMore {a : Form} {n : Nat} {v w : List Token.Kind} (h : Derives a v)
      (hmore : Derives (.upTo n a) w) : Derives (.upTo (n + 1) a) (v ++ w)

/-- A repetition can be extended behind its last round. -/
theorem Derives.many_append {a : Form} {v w : List Token.Kind} (hv : Derives (.many a) v)
    (hw : Derives (.many a) w) : Derives (.many a) (v ++ w) := by
  generalize hb : Form.many a = b at hv
  induction hv with
  | done =>
      cases hb
      exact hw
  | again h hmore ih ihmore =>
      cases hb
      rw [List.append_assoc]
      exact .again h (ihmore rfl)
  | _ => exact nomatch hb

/-- What ends with a repetition can be extended by a round. -/
theorem Derives.extend {a b : Form} {v w : List Token.Kind} (hv : Derives (.seq a (.many b)) v)
    (hw : Derives b w) : Derives (.seq a (.many b)) (v ++ w) := by
  cases hv with
  | seq hfirst hmore =>
      rw [List.append_assoc]
      refine .seq hfirst (hmore.many_append ?_)
      rw [← List.append_nil w]
      exact .again hw .done

theorem Derives.of_part {n : Nonterminal} {w : List Token.Kind} (h : Derives (.part n) w) :
    Derives (rules n) w := by
  cases h with
  | part h => exact h

/-! ### Meanings

Derivations are not taken apart directly, as a repetition can be split in many ways.
Instead one proves of each rule that its body holds only of what the nonterminal means,
and never sees a derivation.
-/

/-- The tokens are what the body says, if the nonterminals mean this. -/
def Holds (meaning : Nonterminal → List Token → Prop) : Form → List Token → Prop
  | .terminal accepts, ts => ∃ token, ts = [token] ∧ accepts token.kind = true
  | .part n, ts => meaning n ts
  | .empty, ts => ts = []
  | .seq a b, ts => ∃ us vs, ts = us ++ vs ∧ a.Holds meaning us ∧ b.Holds meaning vs
  | .either a b, ts => a.Holds meaning ts ∨ b.Holds meaning ts
  | .many a, ts => ∃ rounds : List (List Token), ts = rounds.flatten ∧
      ∀ us ∈ rounds, a.Holds meaning us
  | .upTo n a, ts => ∃ rounds : List (List Token), ts = rounds.flatten ∧ rounds.length ≤ n ∧
      ∀ us ∈ rounds, a.Holds meaning us

/-- **What is derived holds in every meaning that agrees with the rules.** -/
theorem Derives.holds {meaning : Nonterminal → List Token → Prop}
    (hrules : ∀ n ts, (rules n).Holds meaning ts → meaning n ts) {form : Form}
    {w : List Token.Kind} (h : form.Derives w) :
    ∀ ts : List Token, ts.map Token.kind = w → form.Holds meaning ts := by
  induction h with
  | terminal h =>
      intro ts hts
      obtain ⟨token, rfl, rfl⟩ := List.map_eq_singleton_iff.mp hts
      exact ⟨token, rfl, h⟩
  | part h ih => exact fun ts hts => hrules _ ts (ih ts hts)
  | empty => exact fun ts hts => List.map_eq_nil_iff.mp hts
  | seq ha hb iha ihb =>
      intro ts hts
      obtain ⟨us, vs, rfl, hus, hvs⟩ := List.map_eq_append_iff.mp hts
      exact ⟨us, vs, rfl, iha us hus, ihb vs hvs⟩
  | left h ih => exact fun ts hts => .inl (ih ts hts)
  | right h ih => exact fun ts hts => .inr (ih ts hts)
  | done => exact fun ts hts => ⟨[], List.map_eq_nil_iff.mp hts, by simp⟩
  | again h hmore ih ihmore =>
      intro ts hts
      obtain ⟨us, vs, rfl, hus, hvs⟩ := List.map_eq_append_iff.mp hts
      obtain ⟨rounds, rfl, hrounds⟩ := ihmore vs hvs
      exact ⟨us :: rounds, rfl, List.forall_mem_cons.mpr ⟨ih us hus, hrounds⟩⟩
  | enough => exact fun ts hts => ⟨[], List.map_eq_nil_iff.mp hts, by simp, by simp⟩
  | oneMore h hmore ih ihmore =>
      intro ts hts
      obtain ⟨us, vs, rfl, hus, hvs⟩ := List.map_eq_append_iff.mp hts
      obtain ⟨rounds, rfl, hlength, hrounds⟩ := ihmore vs hvs
      exact ⟨us :: rounds, rfl, Nat.succ_le_succ hlength,
        List.forall_mem_cons.mpr ⟨ih us hus, hrounds⟩⟩

/-- What a repetition adds to the right of a left part stays within what the left part is. -/
theorem extends_many {P Q : List Token → Prop} (h : ∀ us vs, P us → Q vs → P (us ++ vs)) :
    ∀ (rounds : List (List Token)) (us : List Token), P us → (∀ vs ∈ rounds, Q vs) →
      P (us ++ rounds.flatten) := by
  intro rounds
  induction rounds with
  | nil =>
      intro us hus _
      rwa [List.flatten_nil, List.append_nil]
  | cons vs rounds ih =>
      intro us hus hrounds
      obtain ⟨hvs, hmore⟩ := List.forall_mem_cons.mp hrounds
      rw [List.flatten_cons, ← List.append_assoc]
      exact ih (us ++ vs) (h us vs hus hvs) hmore

end Form

end Lox
