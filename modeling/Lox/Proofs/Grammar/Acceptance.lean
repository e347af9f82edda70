/-
The parser accepts its grammar.

Parsing reports nothing exactly if the kinds of the tokens are a word of the
grammar.  By what is known of whole programs, this is about the two descriptions of
the grammar, the rules for writing trees and the rules on paper.

From trees to words is an induction on how a tree is written.  From words to trees
is what holds in a meaning: each nonterminal means that there is a tree written with
these tokens, and every rule has to agree with that.  All do at once, but for the
rule of `if`, which may put an open statement in front of `else`.  The `else` then
goes into that statement, and what comes out is a statement again.
-/
import Lox.Proofs.Grammar.Rules

namespace Lox

/-! ### What tokens spell

Derivations are about kinds, and rules for trees are about tokens.  `Spells` stands
between them, with a lemma for each way in which a body is put together, so that a case
of the grammar is a list of its parts.
-/

/-- The kinds of the tokens are derived from the body. -/
def Form.Spells (form : Form) (ts : List Token) : Prop := form.Derives (ts.map Token.kind)

namespace Form.Spells

variable {a b : Form} {n : Nonterminal} {token : Token} {kinds : List Token.Kind}
  {kind : Token.Kind} {ts us vs : List Token}

theorem part (h : (rules n).Spells ts) : (Form.part n).Spells ts := Derives.part h

theorem oneOf (h : token.kind ∈ kinds) : (Form.oneOf kinds).Spells [token] :=
  .terminal (List.contains_iff_mem.mpr h)

theorem single (h : token.kind = kind) : (Form.oneOf [kind]).Spells [token] :=
  oneOf (List.mem_singleton.mpr h)

theorem append (ha : a.Spells us) (hb : b.Spells vs) : (Form.seq a b).Spells (us ++ vs) := by
  rw [Spells, List.map_append]
  exact .seq ha hb

theorem cons (h : token.kind = kind) (hb : b.Spells ts) :
    (Form.seq (Form.oneOf [kind]) b).Spells (token :: ts) :=
  append (.single h) hb

theorem left (h : a.Spells ts) : (Form.either a b).Spells ts := Derives.left h

theorem right (h : b.Spells ts) : (Form.either a b).Spells ts := Derives.right h

theorem missing : (Form.optional a).Spells [] := Derives.right .empty

/-- An optional part that is missing in front. -/
theorem without (hb : b.Spells ts) : (Form.seq (Form.optional a) b).Spells ts :=
  append missing hb

/-- An optional part that is missing at the end. -/
theorem only (ha : a.Spells ts) : (Form.seq a (Form.optional b)).Spells ts := by
  rw [← List.append_nil ts]
  exact append ha missing

private theorem again (ha : a.Spells us) (hmore : (Form.many a).Spells vs) :
    (Form.many a).Spells (us ++ vs) := by
  rw [Spells, List.map_append]
  exact Derives.again ha hmore

theorem oneMore {count : Nat} (ha : a.Spells us) (hmore : (Form.upTo count a).Spells vs) :
    (Form.upTo (count + 1) a).Spells (us ++ vs) := by
  rw [Spells, List.map_append]
  exact Derives.oneMore ha hmore

private theorem many_nil (ha : a.Spells us) : (Form.seq a (.many b)).Spells us := by
  rw [← List.append_nil us]
  exact append ha Derives.done

theorem extend (h : (Form.seq a (.many b)).Spells us) (hb : b.Spells vs) :
    (Form.seq a (.many b)).Spells (us ++ vs) := by
  rw [Spells, List.map_append]
  exact Derives.extend h hb

theorem of_part (h : (Form.part n).Spells ts) : (rules n).Spells ts := Derives.of_part h

end Form.Spells

/-! ### Written phrases are words of the grammar -/

open Form

/-- The nonterminal for operations of these levels. -/
def Nonterminal.ofLevels : List Parser.Level → Nonterminal
  | [] => .unary
  | [_] => .factor
  | [_, _] => .term
  | [_, _, _] => .comparison
  | [_, _, _, _] => .equality
  | [_, _, _, _, _] => .logicAnd
  | _ => .logicOr

private theorem rules_ofLevels {level : Parser.Level} {tighter : List Parser.Level}
    (h : level :: tighter <:+ Parser.levels) :
    rules (.ofLevels (level :: tighter)) =
      joined level.operators (part (.ofLevels tighter)) := by
  simp only [Parser.levels, List.suffix_cons_iff, List.suffix_nil, List.cons.injEq, reduceCtorEq,
    or_false] at h
  rcases h with ⟨rfl, rfl⟩ | ⟨rfl, rfl⟩ | ⟨rfl, rfl⟩ | ⟨rfl, rfl⟩ | ⟨rfl, rfl⟩ | ⟨rfl, rfl⟩ <;> rfl

private theorem spells_atom {token : Token} {e : Expr} (h : Parser.atom? token = some e) :
    (part .primary).Spells [token] := by
  unfold Parser.atom? at h
  split at h <;> rename_i hkind
  · exact .part (.right (.right (.left (.single hkind))))
  · exact .part (.right (.right (.right (.left (.single hkind)))))
  · exact .part (.right (.right (.right (.right (.left (.single hkind))))))
  · exact .part (.left (Derives.terminal (by rw [hkind])))
  · exact .part (.right (.left (Derives.terminal (by rw [hkind]))))
  · exact .part (.right (.right (.right (.right (.right (.left (.single hkind)))))))
  · contradiction

/-- The word of the grammar that the tokens of a phrase are. -/
def Phrase.IsWord : Phrase → List Token → Prop
  | .expression _, ts => (part .assignment).Spells ts
  | .operation levels _, ts => levels <:+ Parser.levels → (part (.ofLevels levels)).Spells ts
  | .unary _, ts => (part .unary).Spells ts
  | .call _, ts => (part .call).Spells ts
  | .primary _, ts => (part .primary).Spells ts
  | .arguments es, ts => es.length ≤ maxArity → (optional (part .arguments)).Spells ts
  | .moreArguments es, ts => ∀ count, es.length ≤ count →
      (upTo count (seq (symbol .comma) (part .expression))).Spells ts

private theorem Phrase.Written.isWord {p : Phrase} {ts : List Token} (h : p.Written ts) :
    p.IsWord ts := by
  induction h with
  | assign hname hequals hvalue ih =>
      exact .part (.left (.cons hname (.cons hequals ih)))
  | operation h ih => exact .part (.right (ih (List.suffix_refl _)))
  | operand h ih =>
      intro hlevels
      have hoperand := ih ((List.suffix_cons _ _).trans hlevels)
      refine .part ?_
      rw [rules_ofLevels hlevels]
      exact .many_nil hoperand
  | join hlevel hl hop hr ihl ihr =>
      intro hlevels
      have hleft := (ihl hlevels).of_part
      refine .part ?_
      rw [rules_ofLevels hlevels] at hleft ⊢
      exact hleft.extend (.append (.oneOf hop) (ihr ((List.suffix_cons _ _).trans hlevels)))
  | unary h ih => exact fun _ => ih
  | operator hop h ih => exact .part (.left (.append (.oneOf hop) ih))
  | call h ih => exact .part (.right ih)
  | apply hcallee hopening harguments hcount hclosing ihcallee iharguments =>
      have hround := Spells.append (iharguments hcount) (.single hclosing)
      exact .part (ihcallee.of_part.extend (.cons hopening hround))
  | primary h ih => exact .part (.many_nil ih)
  | atom h => exact spells_atom h
  | grouping hopening h hclosing ih =>
      exact .part (.right (.right (.right (.right (.right (.right
        (.cons hopening (.append (.part ih) (.single hclosing)))))))))
  | noArguments => exact fun _ => .missing
  | arguments h hmore ih ihmore =>
      intro hcount
      exact .left (.part (.append (.part ih) (ihmore _ (Nat.le_sub_one_of_lt hcount))))
  | noMore => exact fun _ _ => Derives.enough
  | @more comma e es ts us hcomma h hmore ih ihmore =>
      intro count hcount
      cases count with
      | zero => exact absurd hcount (Nat.not_succ_le_zero _)
      | succ count =>
          have helement : (part .expression).Spells ts := .part ih
          exact Spells.oneMore (.cons hcomma helement)
            (ihmore count (Nat.le_of_succ_le_succ hcount))

theorem Phrase.Written.isWord_expression {e : Expr} {ts : List Token}
    (h : (Phrase.expression e).Written ts) : (part .expression).Spells ts :=
  .part h.isWord

/-! ### Written clauses are words of the grammar -/

theorem WrittenVar.isWord {s : Stmt} {keyword : Token} {ts : List Token} (h : WrittenVar s ts)
    (hkeyword : keyword.kind = .keyword .var_) : (part .varDeclaration).Spells (keyword :: ts) := by
  cases h with
  | bare hname hend => exact .part (.cons hkeyword (.cons hname (.without (.single hend))))
  | initialized hname hequals he hend =>
      have hvalue := Spells.cons hequals he.isWord_expression
      exact .part (.cons hkeyword (.cons hname (.append (.left hvalue) (.single hend))))

private theorem WrittenOptional.isWord {e : Option Expr} {ts : List Token}
    (h : WrittenOptional e ts) : (optional (part .expression)).Spells ts := by
  cases h with
  | none => exact .missing
  | some he => exact .left he.isWord_expression

private theorem WrittenInitializer.isWord {s : Option Stmt} {ts : List Token}
    (h : WrittenInitializer s ts) :
    (choice (symbol .semicolon) [part .varDeclaration, part .expressionStatement]).Spells ts := by
  cases h with
  | none hend => exact .right (.right (.single hend))
  | var hkeyword hs => exact .left (hs.isWord hkeyword)
  | expression he hend =>
      exact .right (.left (.part (.append he.isWord_expression (.single hend))))

private theorem WrittenMoreParameters.isWord {names ts : List Token}
    (h : WrittenMoreParameters names ts) :
    ∀ count, names.length ≤ count → (upTo count (seq (symbol .comma) identifier)).Spells ts := by
  induction h with
  | nil => exact fun _ _ => Derives.enough
  | @cons comma name names ts hcomma hname hmore ih =>
      intro count hcount
      cases count with
      | zero => exact absurd hcount (Nat.not_succ_le_zero _)
      | succ count =>
          exact Spells.oneMore (.cons hcomma (.single hname))
            (ih count (Nat.le_of_succ_le_succ hcount))

private theorem WrittenParameters.isWord {names ts : List Token} (h : WrittenParameters names ts)
    (hcount : names.length ≤ maxArity) : (optional (part .parameters)).Spells ts := by
  cases h with
  | nil => exact .missing
  | cons hname hmore =>
      exact .left (.part (.cons hname (hmore.isWord _ (Nat.le_sub_one_of_lt hcount))))

/-- The word of the grammar that the tokens of a clause are. -/
def Clause.IsWord : Clause → List Token → Prop
  | .statement f _ _, ts => (part (.statement f)).Spells ts
  | .declaration f _, ts => (part (.declaration f)).Spells ts
  | .declarations f _, ts => (many (part (.declaration f))).Spells ts

/-- The place of each kind of statement in the rule for all. -/
theorem spells_statement {f : Bool} {ts : List Token} {n : Nonterminal} (h : (part n).Spells ts)
    (hn : n = .forLoop f ∨ n = .conditional f ∨ n = .print ∨ n = .loop f ∨ n = .block f ∨
      n = .expressionStatement) : (part (.statement f)).Spells ts := by
  cases f with
  | false =>
      rcases hn with rfl | rfl | rfl | rfl | rfl | rfl
      · exact .part (.left h)
      · exact .part (.right (.left h))
      · exact .part (.right (.right (.left h)))
      · exact .part (.right (.right (.right (.left h))))
      · exact .part (.right (.right (.right (.right (.left h)))))
      · exact .part (.right (.right (.right (.right (.right h)))))
  | true =>
      rcases hn with rfl | rfl | rfl | rfl | rfl | rfl
      · exact .part (.left h)
      · exact .part (.right (.left h))
      · exact .part (.right (.right (.left h)))
      · exact .part (.right (.right (.right (.right (.left h)))))
      · exact .part (.right (.right (.right (.right (.right (.left h))))))
      · exact .part (.right (.right (.right (.right (.right (.right h))))))

private theorem Clause.Written.isWord {c : Clause} {ts : List Token} (h : c.Written ts) :
    c.IsWord ts := by
  induction h with
  | expression he hend =>
      have hword : (part .expressionStatement).Spells _ :=
        .part (.append he.isWord_expression (.single hend))
      exact spells_statement hword (by simp)
  | print hkeyword he hend =>
      have hword : (part .print).Spells _ :=
        .part (.cons hkeyword (.append he.isWord_expression (.single hend)))
      exact spells_statement hword (by simp)
  | return_ hkeyword hvalue hend =>
      have hword : (part .return_).Spells _ :=
        .part (.cons hkeyword (.append hvalue.isWord (.single hend)))
      exact .part (.right (.right (.right (.left hword))))
  | @loop f _ _ _ _ _ _ _ _ hkeyword hopening hcondition hclosing hbody ih =>
      have hword : (part (.loop f)).Spells _ :=
        .part (.cons hkeyword (.cons hopening (.append hcondition.isWord_expression
          (.cons hclosing ih))))
      exact spells_statement hword (by simp)
  | @forLoop f _ _ _ _ _ _ _ _ _ _ _ _ _ hkeyword hopening hinitializer hcondition hsemicolon
      hincrement hclosing hbody ih =>
      have hword : (part (.forLoop f)).Spells _ :=
        .part (.cons hkeyword (.cons hopening (.append hinitializer.isWord
          (.append hcondition.isWord (.cons hsemicolon (.append hincrement.isWord
            (.cons hclosing ih)))))))
      exact spells_statement hword (by simp)
  | @conditional f _ _ _ _ _ _ _ _ hkeyword hopening hcondition hclosing hthen ih =>
      have hword : (part (.conditional f)).Spells _ :=
        .part (.cons hkeyword (.cons hopening (.append hcondition.isWord_expression
          (.cons hclosing (.only ih)))))
      exact spells_statement hword (by simp)
  | @choice f _ _ _ _ _ _ _ _ _ _ _ hkeyword hopening hcondition hclosing hthen hdivider helse
      ihthen ihelse =>
      have hlast : (optional (seq (keyword .else_) (part (.statement f)))).Spells _ :=
        .left (.cons hdivider ihelse)
      have hword : (part (.conditional f)).Spells _ :=
        .part (.cons hkeyword (.cons hopening (.append hcondition.isWord_expression
          (.cons hclosing (.append ihthen hlast)))))
      exact spells_statement hword (by simp)
  | @block f _ _ _ _ hopening hbody hclosing ih =>
      have hword : (part (.block f)).Spells _ :=
        .part (.cons hopening (.append ih (.single hclosing)))
      exact spells_statement hword (by simp)
  | function hkeyword hname hopening hparams hcount hclosing hleft hbody hright ih =>
      have hblock : (part (.block true)).Spells _ :=
        .part (.cons hleft (.append ih (.single hright)))
      have hword : (part .function).Spells _ :=
        .part (.cons hkeyword (.cons hname (.cons hopening (.append (hparams.isWord hcount)
          (.cons hclosing hblock)))))
      exact .part (.left hword)
  | var hkeyword hs => exact .part (.right (.left (hs.isWord hkeyword)))
  | statement hs ih => exact .part (.right (.right ih))
  | nil => exact Derives.done
  | cons hs hss ih ihss => exact .again ih ihss

/-! ### Words of the grammar can be written

A word says that there is some tree and not which.  Nor does a word say if a statement
is open, so what it means is that there is a statement of either kind.
-/

/-- What the nonterminals mean: that something can be written with the tokens. -/
def Meaning : Nonterminal → List Token → Prop
  | .program, ts => ∃ ss, (Clause.declarations false ss).Written ts
  | .declaration f, ts => ∃ s, (Clause.declaration f s).Written ts
  | .function, ts => ∀ f, ∃ s, (Clause.declaration f s).Written ts
  | .parameters, ts => ∃ names, names.length ≤ maxArity ∧ WrittenParameters names ts
  | .varDeclaration, ts => ∃ keyword us s, ts = keyword :: us ∧ keyword.kind = .keyword .var_ ∧
      WrittenVar s us
  | .statement f, ts | .forLoop f, ts | .conditional f, ts | .loop f, ts =>
      ∃ isOpen s, (Clause.statement f isOpen s).Written ts
  | .print, ts => ∀ f, ∃ isOpen s, (Clause.statement f isOpen s).Written ts
  | .return_, ts => ∃ isOpen s, (Clause.statement true isOpen s).Written ts
  | .block f, ts => ∃ opening body us closing, ts = opening :: (us ++ [closing]) ∧
      opening.kind = .symbol .leftBrace ∧ (Clause.declarations f body).Written us ∧
      closing.kind = .symbol .rightBrace
  | .expressionStatement, ts => ∃ e us semicolon, ts = us ++ [semicolon] ∧
      (Phrase.expression e).Written us ∧ semicolon.kind = .symbol .semicolon
  | .expression, ts | .assignment, ts => ∃ e, (Phrase.expression e).Written ts
  | .logicOr, ts => ∃ e, (Phrase.operation Parser.levels e).Written ts
  | .logicAnd, ts => ∃ e, (Phrase.operation (Parser.levels.drop 1) e).Written ts
  | .equality, ts => ∃ e, (Phrase.operation (Parser.levels.drop 2) e).Written ts
  | .comparison, ts => ∃ e, (Phrase.operation (Parser.levels.drop 3) e).Written ts
  | .term, ts => ∃ e, (Phrase.operation (Parser.levels.drop 4) e).Written ts
  | .factor, ts => ∃ e, (Phrase.operation (Parser.levels.drop 5) e).Written ts
  | .unary, ts => ∃ e, (Phrase.unary e).Written ts
  | .call, ts => ∃ e, (Phrase.call e).Written ts
  | .arguments, ts => ∃ es, es.length ≤ maxArity ∧ (Phrase.arguments es).Written ts
  | .primary, ts => ∃ e, (Phrase.primary e).Written ts

section Holds

variable {meaning : Nonterminal → List Token → Prop} {ts : List Token}

theorem holds_oneOf {kinds : List Token.Kind} :
    (oneOf kinds).Holds meaning ts ↔ ∃ token, ts = [token] ∧ token.kind ∈ kinds := by
  simp only [oneOf, Holds, List.contains_iff_mem]

theorem holds_single {kind : Token.Kind} :
    (oneOf [kind]).Holds meaning ts ↔ ∃ token, ts = [token] ∧ token.kind = kind := by
  simp only [holds_oneOf, List.mem_singleton]

theorem holds_cons {kind : Token.Kind} {b : Form} :
    (seq (oneOf [kind]) b).Holds meaning ts ↔
      ∃ token us, ts = token :: us ∧ token.kind = kind ∧ b.Holds meaning us := by
  simp only [Holds]
  constructor
  · rintro ⟨_, us, rfl, h, hb⟩
    obtain ⟨token, rfl, hkind⟩ := holds_single.mp h
    exact ⟨token, us, rfl, hkind, hb⟩
  · rintro ⟨token, us, rfl, hkind, hb⟩
    exact ⟨[token], us, rfl, holds_single.mpr ⟨token, rfl, hkind⟩, hb⟩

end Holds

private theorem written_of_meaning {levels : List Parser.Level} (h : levels <:+ Parser.levels)
    {ts : List Token} (hts : Meaning (.ofLevels levels) ts) :
    ∃ e, (Phrase.operation levels e).Written ts := by
  simp only [Parser.levels, List.suffix_cons_iff, List.suffix_nil] at h
  rcases h with rfl | rfl | rfl | rfl | rfl | rfl | rfl
  iterate 6 exact hts
  obtain ⟨e, he⟩ := hts
  exact ⟨e, .unary he⟩

/-- Operands with operators of a level between them are an operation of that level. -/
theorem written_operation {level : Parser.Level} {tighter : List Parser.Level}
    (hlevel : level :: tighter <:+ Parser.levels) {ts : List Token}
    (h : (rules (.ofLevels (level :: tighter))).Holds Meaning ts) :
    ∃ e, (Phrase.operation (level :: tighter) e).Written ts := by
  have htighter : tighter <:+ Parser.levels := (List.suffix_cons _ _).trans hlevel
  rw [rules_ofLevels hlevel] at h
  obtain ⟨us, _, rfl, hfirst, rounds, rfl, hrounds⟩ := h
  refine extends_many (P := fun us => ∃ e, (Phrase.operation (level :: tighter) e).Written us)
    ?_ rounds us ?_ hrounds
  · rintro us _ ⟨l, hl⟩ ⟨_, vs, rfl, hop, hvs⟩
    obtain ⟨op, rfl, hkind⟩ := holds_oneOf.mp hop
    obtain ⟨r, hr⟩ := written_of_meaning htighter hvs
    exact ⟨_, .join hlevel hl hkind hr⟩
  · obtain ⟨e, he⟩ := written_of_meaning htighter hfirst
    exact ⟨e, .operand he⟩

private theorem written_call {ts : List Token} (h : (rules .call).Holds Meaning ts) :
    ∃ e, (Phrase.call e).Written ts := by
  obtain ⟨us, _, rfl, ⟨e, he⟩, rounds, rfl, hrounds⟩ := h
  refine extends_many (P := fun us => ∃ e, (Phrase.call e).Written us) ?_ rounds us
    ⟨e, .primary he⟩ hrounds
  rintro us vs ⟨callee, hcallee⟩ hround
  obtain ⟨opening, _, rfl, hopening, as, _, rfl, harguments, hclosing⟩ := holds_cons.mp hround
  obtain ⟨closing, rfl, hkind⟩ := holds_single.mp hclosing
  rcases harguments with ⟨es, hcount, hes⟩ | rfl
  · exact ⟨_, .apply hcallee hopening hes hcount hkind⟩
  · exact ⟨_, .apply hcallee hopening .noArguments (Nat.zero_le _) hkind⟩

private theorem written_primary {ts : List Token} (h : (rules .primary).Holds Meaning ts) :
    ∃ e, (Phrase.primary e).Written ts := by
  rcases h with ⟨token, rfl, hkind⟩ | ⟨token, rfl, hkind⟩ | h | h | h | h | h
  · cases hvalue : token.kind with
    | number n => exact ⟨_, .atom (by rw [Parser.atom?, hvalue])⟩
    | _ => simp [hvalue] at hkind
  · cases hvalue : token.kind with
    | string contents => exact ⟨_, .atom (by rw [Parser.atom?, hvalue])⟩
    | _ => simp [hvalue] at hkind
  iterate 4
    obtain ⟨token, rfl, hkind⟩ := holds_single.mp h
    exact ⟨_, .atom (by rw [Parser.atom?, hkind])⟩
  obtain ⟨opening, _, rfl, hopening, us, _, rfl, ⟨e, he⟩, hclosing⟩ := holds_cons.mp h
  obtain ⟨closing, rfl, hkind⟩ := holds_single.mp hclosing
  exact ⟨_, .grouping hopening he hkind⟩

private theorem written_moreArguments : ∀ rounds : List (List Token),
    (∀ us ∈ rounds, (seq (symbol .comma) (part .expression)).Holds Meaning us) →
      ∃ es, es.length = rounds.length ∧ (Phrase.moreArguments es).Written rounds.flatten := by
  intro rounds
  induction rounds with
  | nil => exact fun _ => ⟨[], rfl, .noMore⟩
  | cons us rounds ih =>
      intro hrounds
      obtain ⟨hround, hmore⟩ := List.forall_mem_cons.mp hrounds
      obtain ⟨comma, us, rfl, hcomma, e, he⟩ := holds_cons.mp hround
      obtain ⟨es, hlength, hes⟩ := ih hmore
      exact ⟨e :: es, congrArg Nat.succ hlength, .more hcomma he hes⟩

private theorem written_moreParameters : ∀ rounds : List (List Token),
    (∀ us ∈ rounds, (seq (symbol .comma) identifier).Holds Meaning us) →
      ∃ names, names.length = rounds.length ∧ WrittenMoreParameters names rounds.flatten := by
  intro rounds
  induction rounds with
  | nil => exact fun _ => ⟨[], rfl, .nil⟩
  | cons us rounds ih =>
      intro hrounds
      obtain ⟨hround, hmore⟩ := List.forall_mem_cons.mp hrounds
      obtain ⟨comma, us, rfl, hcomma, hname⟩ := holds_cons.mp hround
      obtain ⟨name, rfl, hkind⟩ := holds_single.mp hname
      obtain ⟨names, hlength, hnames⟩ := ih hmore
      exact ⟨name :: names, congrArg Nat.succ hlength, .cons hcomma hkind hnames⟩

private theorem written_optional {ts : List Token}
    (h : (optional (part .expression)).Holds Meaning ts) : ∃ e, WrittenOptional e ts := by
  rcases h with ⟨e, he⟩ | rfl
  · exact ⟨some e, .some he⟩
  · exact ⟨none, .none⟩

private theorem written_initializer {ts : List Token}
    (h : (choice (symbol .semicolon) [part .varDeclaration, part .expressionStatement]).Holds
      Meaning ts) : ∃ s, WrittenInitializer s ts := by
  rcases h with ⟨keyword, us, s, rfl, hkeyword, hs⟩ | ⟨e, us, semicolon, rfl, he, hend⟩ | h
  · exact ⟨_, .var hkeyword hs⟩
  · exact ⟨_, .expression he hend⟩
  · obtain ⟨semicolon, rfl, hend⟩ := holds_single.mp h
    exact ⟨none, .none hend⟩

private theorem written_declarations {f : Bool} : ∀ rounds : List (List Token),
    (∀ us ∈ rounds, Meaning (.declaration f) us) →
      ∃ ss, (Clause.declarations f ss).Written rounds.flatten := by
  intro rounds
  induction rounds with
  | nil => exact fun _ => ⟨[], .nil⟩
  | cons us rounds ih =>
      intro hrounds
      obtain ⟨⟨s, hs⟩, hmore⟩ := List.forall_mem_cons.mp hrounds
      obtain ⟨ss, hss⟩ := ih hmore
      exact ⟨s :: ss, .cons hs hss⟩

/-! ### The dangling `else`

On paper any statement may stand between `if` and `else`.  If it is open, the `else`
belongs to an `if` inside it, the last that has none.  What comes out is a statement
again, open or not.
-/

/-- An `else` behind an open statement goes into it, and leaves a statement. -/
theorem Clause.Written.attach {c : Clause} {ts : List Token} (h : c.Written ts) :
    match c with
    | .statement f isOpen _ => isOpen = true → ∀ elseOpen elseBranch divider us,
        divider.kind = .keyword .else_ → (Clause.statement f elseOpen elseBranch).Written us →
          ∃ isOpen s, (Clause.statement f isOpen s).Written (ts ++ divider :: us)
    | _ => True := by
  induction h with
  | expression | print | return_ | block => exact fun hopen => nomatch hopen
  | loop hkeyword hopening hcondition hclosing hbody ih =>
      intro hopen elseOpen elseBranch divider us hdivider helse
      obtain ⟨isOpen, body, hbody⟩ := ih hopen elseOpen elseBranch divider us hdivider helse
      simp only [List.cons_append, List.append_assoc]
      exact ⟨_, _, .loop hkeyword hopening hcondition hclosing hbody⟩
  | forLoop hkeyword hopening hinitializer hcondition hsemicolon hincrement hclosing hbody ih =>
      intro hopen elseOpen elseBranch divider us hdivider helse
      obtain ⟨isOpen, body, hbody⟩ := ih hopen elseOpen elseBranch divider us hdivider helse
      simp only [List.cons_append, List.append_assoc]
      exact ⟨_, _, .forLoop hkeyword hopening hinitializer hcondition hsemicolon hincrement
        hclosing hbody⟩
  | @conditional f isOpen condition thenBranch keyword opening closing ts vs hkeyword hopening
      hcondition hclosing hthen ih =>
      intro _ elseOpen elseBranch divider us hdivider helse
      simp only [List.cons_append, List.append_assoc]
      cases isOpen with
      | false =>
          exact ⟨_, _, .choice hkeyword hopening hcondition hclosing hthen hdivider helse⟩
      | true =>
          obtain ⟨_, inner, hinner⟩ := ih rfl elseOpen elseBranch divider us hdivider helse
          exact ⟨_, _, .conditional hkeyword hopening hcondition hclosing hinner⟩
  | choice hkeyword hopening hcondition hclosing hthen hsecond hlast ihthen ihlast =>
      intro hopen elseOpen elseBranch divider us hdivider helse
      obtain ⟨isOpen, last, hlast⟩ := ihlast hopen elseOpen elseBranch divider us hdivider helse
      simp only [List.cons_append, List.append_assoc]
      exact ⟨_, _, .choice hkeyword hopening hcondition hclosing hthen hsecond hlast⟩
  | function | var | statement | nil | cons => trivial

/-! ### Agreement with the rules -/

private theorem written_conditional {f : Bool} {ts : List Token}
    (h : (rules (.conditional f)).Holds Meaning ts) :
    ∃ isOpen s, (Clause.statement f isOpen s).Written ts := by
  obtain ⟨keyword, _, rfl, hkeyword, h⟩ := holds_cons.mp h
  obtain ⟨opening, _, rfl, hopening, us, _, rfl, ⟨condition, hcondition⟩, h⟩ := holds_cons.mp h
  obtain ⟨closing, _, rfl, hclosing, vs, _, rfl, ⟨thenOpen, thenBranch, hthen⟩, h⟩ :=
    holds_cons.mp h
  rcases h with h | rfl
  · obtain ⟨divider, ws, rfl, hdivider, elseOpen, elseBranch, helse⟩ := holds_cons.mp h
    cases thenOpen with
    | false =>
        exact ⟨_, _, .choice hkeyword hopening hcondition hclosing hthen hdivider helse⟩
    | true =>
        obtain ⟨_, inner, hinner⟩ := hthen.attach rfl elseOpen elseBranch divider ws hdivider helse
        exact ⟨_, _, .conditional hkeyword hopening hcondition hclosing hinner⟩
  · rw [List.append_nil]
    exact ⟨_, _, .conditional hkeyword hopening hcondition hclosing hthen⟩

private theorem written_loop {f : Bool} {ts : List Token} (h : (rules (.loop f)).Holds Meaning ts) :
    ∃ isOpen s, (Clause.statement f isOpen s).Written ts := by
  obtain ⟨keyword, _, rfl, hkeyword, h⟩ := holds_cons.mp h
  obtain ⟨opening, _, rfl, hopening, us, _, rfl, ⟨condition, hcondition⟩, h⟩ := holds_cons.mp h
  obtain ⟨closing, _, rfl, hclosing, isOpen, body, hbody⟩ := holds_cons.mp h
  exact ⟨_, _, .loop hkeyword hopening hcondition hclosing hbody⟩

private theorem written_forLoop {f : Bool} {ts : List Token}
    (h : (rules (.forLoop f)).Holds Meaning ts) :
    ∃ isOpen s, (Clause.statement f isOpen s).Written ts := by
  obtain ⟨keyword, _, rfl, hkeyword, h⟩ := holds_cons.mp h
  obtain ⟨opening, _, rfl, hopening, is, _, rfl, hinitializer, cs, _, rfl, hcondition, h⟩ :=
    holds_cons.mp h
  obtain ⟨semicolon, _, rfl, hsemicolon, ns, _, rfl, hincrement, h⟩ := holds_cons.mp h
  obtain ⟨closing, _, rfl, hclosing, isOpen, body, hbody⟩ := holds_cons.mp h
  obtain ⟨initializer, hi⟩ := written_initializer hinitializer
  obtain ⟨condition, hc⟩ := written_optional hcondition
  obtain ⟨increment, hn⟩ := written_optional hincrement
  exact ⟨_, _, .forLoop hkeyword hopening hi hc hsemicolon hn hclosing hbody⟩

private theorem written_function {ts : List Token} (h : (rules .function).Holds Meaning ts)
    (f : Bool) : ∃ s, (Clause.declaration f s).Written ts := by
  obtain ⟨keyword, _, rfl, hkeyword, h⟩ := holds_cons.mp h
  obtain ⟨name, _, rfl, hname, h⟩ := holds_cons.mp h
  obtain ⟨opening, _, rfl, hopening, ps, _, rfl, hparameters, h⟩ := holds_cons.mp h
  obtain ⟨closing, _, rfl, hclosing, left, body, us, right, rfl, hleft, hbody, hright⟩ :=
    holds_cons.mp h
  rcases hparameters with ⟨names, hcount, hnames⟩ | rfl
  · exact ⟨_, .function hkeyword hname hopening hnames hcount hclosing hleft hbody hright⟩
  · exact ⟨_, .function hkeyword hname hopening .nil (Nat.zero_le _) hclosing hleft hbody hright⟩

private theorem written_statement {f : Bool} {ts : List Token}
    (h : (rules (.statement f)).Holds Meaning ts) :
    ∃ isOpen s, (Clause.statement f isOpen s).Written ts := by
  have hblock (h : Meaning (.block f) ts) :
      ∃ isOpen s, (Clause.statement f isOpen s).Written ts := by
    obtain ⟨opening, body, us, closing, rfl, hopening, hbody, hclosing⟩ := h
    exact ⟨_, _, .block hopening hbody hclosing⟩
  have hexpression (h : Meaning .expressionStatement ts) :
      ∃ isOpen s, (Clause.statement f isOpen s).Written ts := by
    obtain ⟨e, us, semicolon, rfl, he, hend⟩ := h
    exact ⟨_, _, .expression he hend⟩
  cases f with
  | false =>
      rcases h with h | h | h | h | h | h
      · exact h
      · exact h
      · exact h false
      · exact h
      · exact hblock h
      · exact hexpression h
  | true =>
      rcases h with h | h | h | h | h | h | h
      · exact h
      · exact h
      · exact h true
      · exact h
      · exact h
      · exact hblock h
      · exact hexpression h

private theorem length_cons_le_maxArity {α : Type} {a : α} {as : List α}
    (h : as.length ≤ maxArity - 1) : (a :: as).length ≤ maxArity :=
  Nat.succ_le_of_lt (Nat.lt_of_le_sub_one (by decide) h)

/-- The meaning agrees with the rules. -/
theorem meaning_of_rules : ∀ n ts, (rules n).Holds Meaning ts → Meaning n ts := by
  intro n ts h
  cases n with
  | program =>
      obtain ⟨rounds, rfl, hrounds⟩ := h
      exact written_declarations rounds hrounds
  | declaration f =>
      rcases h with h | ⟨keyword, us, s, rfl, hkeyword, hs⟩ | ⟨isOpen, s, hs⟩
      · exact h f
      · exact ⟨s, .var hkeyword hs⟩
      · exact ⟨s, .statement hs⟩
  | function => exact written_function h
  | parameters =>
      obtain ⟨name, _, rfl, hname, rounds, rfl, hcount, hrounds⟩ := holds_cons.mp h
      obtain ⟨names, hlength, hnames⟩ := written_moreParameters rounds hrounds
      refine ⟨name :: names, ?_, .cons hname hnames⟩
      exact length_cons_le_maxArity (hlength ▸ hcount)
  | varDeclaration =>
      obtain ⟨keyword, _, rfl, hkeyword, h⟩ := holds_cons.mp h
      obtain ⟨name, _, rfl, hname, us, _, rfl, hvalue, hend⟩ := holds_cons.mp h
      obtain ⟨semicolon, rfl, hsemicolon⟩ := holds_single.mp hend
      rcases hvalue with hvalue | rfl
      · obtain ⟨equals, vs, rfl, hequals, e, he⟩ := holds_cons.mp hvalue
        exact ⟨keyword, _, _, rfl, hkeyword, .initialized hname hequals he hsemicolon⟩
      · exact ⟨keyword, _, _, rfl, hkeyword, .bare hname hsemicolon⟩
  | statement f => exact written_statement h
  | forLoop f => exact written_forLoop h
  | conditional f => exact written_conditional h
  | print =>
      obtain ⟨keyword, _, rfl, hkeyword, us, _, rfl, ⟨e, he⟩, hend⟩ := holds_cons.mp h
      obtain ⟨semicolon, rfl, hsemicolon⟩ := holds_single.mp hend
      exact fun f => ⟨_, _, .print hkeyword he hsemicolon⟩
  | return_ =>
      obtain ⟨keyword, _, rfl, hkeyword, us, _, rfl, hvalue, hend⟩ := holds_cons.mp h
      obtain ⟨semicolon, rfl, hsemicolon⟩ := holds_single.mp hend
      obtain ⟨value, hvalue⟩ := written_optional hvalue
      exact ⟨_, _, .return_ hkeyword hvalue hsemicolon⟩
  | loop f => exact written_loop h
  | block f =>
      obtain ⟨opening, _, rfl, hopening, _, _, rfl, ⟨rounds, rfl, hrounds⟩, hclosing⟩ :=
        holds_cons.mp h
      obtain ⟨closing, rfl, hkind⟩ := holds_single.mp hclosing
      obtain ⟨body, hbody⟩ := written_declarations rounds hrounds
      exact ⟨opening, body, _, closing, rfl, hopening, hbody, hkind⟩
  | expressionStatement =>
      obtain ⟨us, _, rfl, ⟨e, he⟩, hend⟩ := h
      obtain ⟨semicolon, rfl, hsemicolon⟩ := holds_single.mp hend
      exact ⟨e, us, semicolon, rfl, he, hsemicolon⟩
  | expression => exact h
  | assignment =>
      rcases h with h | ⟨e, he⟩
      · obtain ⟨name, _, rfl, hname, h⟩ := holds_cons.mp h
        obtain ⟨equals, us, rfl, hequals, value, hvalue⟩ := holds_cons.mp h
        exact ⟨_, .assign hname hequals hvalue⟩
      · exact ⟨e, .operation he⟩
  | logicOr => exact written_operation (List.suffix_refl Parser.levels) h
  | logicAnd => exact written_operation (List.drop_suffix 1 Parser.levels) h
  | equality => exact written_operation (List.drop_suffix 2 Parser.levels) h
  | comparison => exact written_operation (List.drop_suffix 3 Parser.levels) h
  | term => exact written_operation (List.drop_suffix 4 Parser.levels) h
  | factor => exact written_operation (List.drop_suffix 5 Parser.levels) h
  | unary =>
      rcases h with ⟨_, us, rfl, hop, e, he⟩ | ⟨e, he⟩
      · obtain ⟨op, rfl, hkind⟩ := holds_oneOf.mp hop
        exact ⟨_, .operator hkind he⟩
      · exact ⟨e, .call he⟩
  | call => exact written_call h
  | arguments =>
      obtain ⟨us, _, rfl, ⟨e, he⟩, rounds, rfl, hcount, hrounds⟩ := h
      obtain ⟨es, hlength, hes⟩ := written_moreArguments rounds hrounds
      refine ⟨e :: es, ?_, .arguments he hes⟩
      exact length_cons_le_maxArity (hlength ▸ hcount)
  | primary => exact written_primary h

/-! ### Acceptance -/

/-- **A program is reported on by no fault exactly if its grammar derives it.** -/
theorem parse_faults_eq_nil_iff {ts : List Token} {last : Token}
    (hts : ∀ token ∈ ts, token.kind ≠ .endOfFile) (hlast : last.kind = .endOfFile) :
    (parse (ts ++ [last])).faults = [] ↔
      (part .program).Derives (ts.map Token.kind) := by
  have hends : ∀ token ∈ ts, token.isEnd = false :=
    fun token hmem => decide_eq_false (hts token hmem)
  have hend : last.isEnd = true := decide_eq_true hlast
  constructor
  · intro hfaults
    have hwritten : (Clause.declarations false (parse (ts ++ [last])).statements).Written ts := by
      rw [← Parser.parse_append_eq_iff hends hend, ← hfaults]
    exact .part hwritten.isWord
  · intro hderives
    obtain ⟨ss, hss⟩ := hderives.holds meaning_of_rules ts rfl
    rw [(Parser.parse_append_eq_iff hends hend).mpr hss]

/-- `if (nil) if (nil) nil; else nil;` -/
def danglingElse : List Token :=
  [⟨.keyword .if_, "if", 1⟩, ⟨.symbol .leftParen, "(", 1⟩, ⟨.keyword .nil_, "nil", 1⟩,
    ⟨.symbol .rightParen, ")", 1⟩, ⟨.keyword .if_, "if", 1⟩, ⟨.symbol .leftParen, "(", 1⟩,
    ⟨.keyword .nil_, "nil", 1⟩, ⟨.symbol .rightParen, ")", 1⟩, ⟨.keyword .nil_, "nil", 1⟩,
    ⟨.symbol .semicolon, ";", 1⟩, ⟨.keyword .else_, "else", 1⟩, ⟨.keyword .nil_, "nil", 1⟩,
    ⟨.symbol .semicolon, ";", 1⟩]

/-- The grammar derives in two ways what the parser reads in one. -/
theorem derives_danglingElse :
    (∀ token ∈ danglingElse, token.kind ≠ .endOfFile) ∧
      (part .program).Derives (danglingElse.map Token.kind) := by
  have hts : ∀ token ∈ danglingElse, token.kind ≠ .endOfFile := by decide
  have hread : (parse (danglingElse ++ [.endOfFile 1])).faults = [] := by decide
  exact ⟨hts, (parse_faults_eq_nil_iff hts rfl).mp hread⟩

end Lox
