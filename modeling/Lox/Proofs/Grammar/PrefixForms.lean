/-
Forms: what the text of an expression looks like.

The text of an expression is a word, or a word and the texts of other expressions in
parentheses.  As long as there are no spaces and parentheses in words, one can see
where a text ends, and so which texts stand in it: this is unique readability, shown for
any text and whatever stands behind it.
-/
import Lox.Expr.Text

namespace Lox

/-- A word, or a word with other forms behind it in parentheses. -/
inductive PrefixForm where
  | word (w : List Char)
  | node (head : List Char) (arguments : List PrefixForm)

namespace PrefixForm

/-! ### Texts of forms -/

mutual

/-- How a form is written. -/
def text : PrefixForm → List Char
  | word w => w
  | node head arguments => '(' :: (head ++ (textAll arguments ++ [')']))

/-- How forms are written, each after a space. -/
def textAll : List PrefixForm → List Char
  | [] => []
  | f :: fs => ' ' :: (f.text ++ textAll fs)

end

/-- The character is none of those that stand between words. -/
def IsInner (c : Char) : Prop := c ≠ ' ' ∧ c ≠ '(' ∧ c ≠ ')'

instance : DecidablePred IsInner := fun _ => inferInstanceAs (Decidable (_ ∧ _))

/-- The text is one word, and cannot be taken for anything else. -/
def IsWord (w : List Char) : Prop := w ≠ [] ∧ ∀ c ∈ w, IsInner c

mutual

/-- All the words of a form are. -/
def Plain : PrefixForm → Prop
  | word w => IsWord w
  | node head arguments => IsWord head ∧ PlainAll arguments

def PlainAll : List PrefixForm → Prop
  | [] => True
  | f :: fs => f.Plain ∧ PlainAll fs

end

/-! ### Unique readability

A text is read from the front, with more text behind it.  For a form in parentheses its
own closing parenthesis says where it ends; for a word it has to be what stands behind,
a space, a parenthesis, or nothing.
-/

/-- Behind a text like this a word has come to its end. -/
def EndsWord (rest : List Char) : Prop := ∀ c ∈ rest.head?, ¬ IsInner c

private theorem endsWord_space (rest : List Char) : EndsWord (' ' :: rest) := by
  intro c hc h
  exact h.1 (Option.some.inj hc).symm

private theorem endsWord_paren (rest : List Char) : EndsWord (')' :: rest) := by
  intro c hc h
  exact h.2.2 (Option.some.inj hc).symm

private theorem endsWord_textAll (fs : List PrefixForm) (rest : List Char) :
    EndsWord (textAll fs ++ ')' :: rest) := by
  cases fs with
  | nil => exact endsWord_paren rest
  | cons f fs => exact endsWord_space _

/-- Words are cut off in one way. -/
theorem word_append_inj {v w r s : List Char} (hv : ∀ c ∈ v, IsInner c) (hw : ∀ c ∈ w, IsInner c)
    (hr : EndsWord r) (hs : EndsWord s) (h : v ++ r = w ++ s) : v = w ∧ r = s := by
  induction v generalizing w with
  | nil =>
      cases w with
      | nil => exact ⟨rfl, h⟩
      | cons c w =>
          rw [List.nil_append] at h
          exact absurd (hw c List.mem_cons_self) (hr c (by rw [h]; rfl))
  | cons b v ih =>
      obtain ⟨hb, hv⟩ := List.forall_mem_cons.mp hv
      cases w with
      | nil =>
          rw [List.nil_append] at h
          exact absurd hb (hs b (by rw [← h]; rfl))
      | cons c w =>
          rw [List.cons_append, List.cons_append, List.cons.injEq] at h
          obtain ⟨rfl, rfl⟩ := ih hv (List.forall_mem_cons.mp hw).2 h.2
          exact ⟨congrArg (· :: v) h.1, rfl⟩

private theorem IsWord.exists_inner {w : List Char} (h : IsWord w) :
    ∃ c v, w = c :: v ∧ IsInner c := by
  obtain ⟨c, v, rfl⟩ := List.exists_cons_of_ne_nil h.1
  exact ⟨c, v, rfl, h.2 c List.mem_cons_self⟩

/-- A word does not begin like a form in parentheses. -/
theorem IsWord.append_ne {w r s : List Char} (h : IsWord w) : w ++ r ≠ '(' :: s := by
  obtain ⟨c, v, rfl, hc⟩ := h.exists_inner
  intro heq
  exact hc.2.1 (List.cons.inj heq).1

mutual

/-- **A form is cut off in one way**, whatever stands behind it that ends a word. -/
theorem text_append_inj : ∀ {f g : PrefixForm} {r s : List Char}, f.Plain → g.Plain → EndsWord r →
    EndsWord s → f.text ++ r = g.text ++ s → f = g ∧ r = s
  | word v, word w, r, s, hf, hg, hr, hs, h => by
      obtain ⟨rfl, rfl⟩ := word_append_inj hf.2 hg.2 hr hs h
      exact ⟨rfl, rfl⟩
  | word v, node head arguments, r, s, hf, _, _, _, h => absurd h hf.append_ne
  | node head arguments, word w, r, s, _, hg, _, _, h => absurd h.symm hg.append_ne
  | node head arguments, node head' arguments', r, s, hf, hg, _, _, h => by
      simp only [text, List.cons_append, List.append_assoc, List.nil_append, List.cons.injEq,
        true_and] at h
      obtain ⟨rfl, hrest⟩ := word_append_inj hf.1.2 hg.1.2 (endsWord_textAll _ _)
        (endsWord_textAll _ _) h
      obtain ⟨rfl, rfl⟩ := textAll_append_inj hf.2 hg.2 hrest
      exact ⟨rfl, rfl⟩

theorem textAll_append_inj : ∀ {fs gs : List PrefixForm} {r s : List Char}, PlainAll fs →
    PlainAll gs → textAll fs ++ ')' :: r = textAll gs ++ ')' :: s → fs = gs ∧ r = s
  | [], [], r, s, _, _, h => ⟨rfl, (List.cons.inj h).2⟩
  | [], g :: gs, r, s, _, _, h => absurd (List.cons.inj h).1 (by decide)
  | f :: fs, [], r, s, _, _, h => absurd (List.cons.inj h).1 (by decide)
  | f :: fs, g :: gs, r, s, hf, hg, h => by
      simp only [textAll, List.cons_append, List.append_assoc, List.cons.injEq, true_and] at h
      obtain ⟨rfl, hrest⟩ := text_append_inj hf.1 hg.1 (endsWord_textAll _ _)
        (endsWord_textAll _ _) h
      obtain ⟨rfl, rfl⟩ := textAll_append_inj hf.2 hg.2 hrest
      exact ⟨rfl, rfl⟩

end

/-- **A text of plain words is the text of one form.** -/
theorem text_inj {f g : PrefixForm} (hf : f.Plain) (hg : g.Plain) (h : f.text = g.text) :
    f = g := by
  have hnone : EndsWord [] := fun _ hc => absurd hc (Option.not_mem_none _)
  exact (text_append_inj hf hg hnone hnone (by rw [h])).1

end PrefixForm

/-! ### The forms of expressions -/

namespace Expr

mutual

/-- The form of an expression. -/
def form : Expr → PrefixForm
  | assign name value => .node "assign".toList [.word name.lexeme.toList, value.form]
  | binary left op right | logical left op right =>
    .node op.lexeme.toList [left.form, right.form]
  | call callee _ arguments => .node "call".toList (callee.form :: formAll arguments)
  | get object name => .node "get".toList [object.form, .word name.lexeme.toList]
  | grouping inner => .node "group".toList [inner.form]
  | literal value => .word value.text.toList
  | set object name value =>
    .node "set".toList [object.form, .word name.lexeme.toList, value.form]
  | super _ method => .node "super".toList [.word method.lexeme.toList]
  | this _ => .node "this".toList []
  | unary op right => .node op.lexeme.toList [right.form]
  | var name => .word name.lexeme.toList

def formAll : List Expr → List PrefixForm
  | [] => []
  | e :: es => e.form :: formAll es

end

mutual

/-- The text of an expression is that of its form. -/
theorem toList_text : ∀ e : Expr, e.text.toList = e.form.text
  | assign name value => by
      simp [text, form, PrefixForm.text, PrefixForm.textAll, toList_text value]
  | binary left op right | logical left op right => by
      simp [text, form, PrefixForm.text, PrefixForm.textAll, toList_text left, toList_text right]
  | call callee _ arguments => by
      simp [text, form, PrefixForm.text, PrefixForm.textAll, toList_text callee,
        toList_textList arguments]
  | get object name => by simp [text, form, PrefixForm.text, PrefixForm.textAll, toList_text object]
  | grouping inner => by simp [text, form, PrefixForm.text, PrefixForm.textAll, toList_text inner]
  | literal value => by simp [text, form, PrefixForm.text]
  | set object name value => by
      simp [text, form, PrefixForm.text, PrefixForm.textAll, toList_text object, toList_text value]
  | super _ method => by simp [text, form, PrefixForm.text, PrefixForm.textAll]
  | this _ => by simp [text, form, PrefixForm.text, PrefixForm.textAll]
  | unary op right => by simp [text, form, PrefixForm.text, PrefixForm.textAll, toList_text right]
  | var name => by simp [text, form, PrefixForm.text]

theorem toList_textList : ∀ es : List Expr, (textList es).toList = PrefixForm.textAll (formAll es)
  | [] => by simp [textList, formAll, PrefixForm.textAll]
  | e :: es => by simp [textList, formAll, PrefixForm.textAll, toList_text e, toList_textList es]

end

end Expr

end Lox
