import Bimatrix.Json.Value
import Bimatrix.Proofs.Json.Layout

/-! # Values and their tokens

Every value whose numbers are spelled as numbers is read back from its tokens, and so from every
layout of them.
-/
namespace Bimatrix.Json

namespace Value

/-- A value whose numbers are spelled as numbers. -/
inductive Valid : Value → Prop
  | null : Valid null
  | bool (b : Bool) : Valid (bool b)
  | number {lexeme : List Char} (strict : (Numeral.ofStrict? lexeme).isSome = true) :
      Valid (number lexeme)
  | text (units : List Nat) : Valid (text units)
  | list {items : List Value} (h : ∀ v ∈ items, Valid v) : Valid (list items)
  | object {fields : List (List Nat × Value)} (h : ∀ f ∈ fields, Valid f.2) :
      Valid (object fields)

mutual

def tokens : Value → List Token
  | null => [.word ['n', 'u', 'l', 'l']]
  | bool true => [.word ['t', 'r', 'u', 'e']]
  | bool false => [.word ['f', 'a', 'l', 's', 'e']]
  | number lexeme => [.word lexeme]
  | text units => [.text units]
  | list [] => [.openList, .closeList]
  | list (v :: items) => .openList :: (v.tokens ++ itemTokens items)
  | object [] => [.openObject, .closeObject]
  | object ((key, v) :: fields) =>
    .openObject :: .text key :: .colon :: (v.tokens ++ fieldTokens fields)

def itemTokens : List Value → List Token
  | [] => [.closeList]
  | v :: items => .comma :: (v.tokens ++ itemTokens items)

def fieldTokens : List (List Nat × Value) → List Token
  | [] => [.closeObject]
  | (key, v) :: fields => .comma :: .text key :: .colon :: (v.tokens ++ fieldTokens fields)

end

variable {stack : List Frame} {v : Value}

theorem ofWord?_of_strict {lexeme : List Char}
    (h : (Numeral.ofStrict? lexeme).isSome = true) : ofWord? lexeme = some (number lexeme) := by
  have hne {name : List Char} (hname : Numeral.ofStrict? name = none) : lexeme ≠ name := by
    rintro rfl
    rw [hname] at h
    cases h
  rw [ofWord?, if_neg (hne rfl), if_neg (hne rfl), if_neg (hne rfl), if_pos h]

/-- The end of a list is not where a value starts. -/
theorem tokens_eq_cons (v : Value) : ∃ t ts, v.tokens = t :: ts ∧ t ≠ .closeList := by
  cases v with
  | null => exact ⟨_, _, by rw [tokens], by simp⟩
  | bool b => cases b <;> exact ⟨_, _, by rw [tokens], by simp⟩
  | number lexeme => exact ⟨_, _, by rw [tokens], by simp⟩
  | text units => exact ⟨_, _, by rw [tokens], by simp⟩
  | list items => cases items <;> exact ⟨_, _, by rw [tokens], by simp⟩
  | object fields =>
    cases fields with
    | nil => exact ⟨_, _, by rw [tokens], by simp⟩
    | cons f fields => exact ⟨_, _, by rw [tokens], by simp⟩

theorem foldlM_step_cons {s s' : Stage × List Frame} {t : Token} (h : step s t = some s')
    (ts : List Token) : (t :: ts).foldlM step s = ts.foldlM step s' := by
  rw [List.foldlM_cons, h]
  rfl

theorem foldlM_step_append {s s' : Stage × List Frame} {ts : List Token}
    (h : ts.foldlM step s = some s') (ts' : List Token) :
    (ts ++ ts').foldlM step s = ts'.foldlM step s' := by
  rw [List.foldlM_append, h]
  rfl

/-- The first item of a list is read as any other value. -/
theorem foldlM_step_firstItem (v : Value) (stack : List Frame) :
    v.tokens.foldlM step (.firstItem, stack) = v.tokens.foldlM step (.value, stack) := by
  obtain ⟨t, ts, htokens, hne⟩ := v.tokens_eq_cons
  have hstep : step (.firstItem, stack) t = step (.value, stack) t := by
    simp [step, hne]
  rw [htokens, List.foldlM_cons, List.foldlM_cons, hstep]

/-- The tokens of a value are read as that value. -/
def Reads (v : Value) : Prop :=
  ∀ stack, v.tokens.foldlM step (.value, stack) = some (.after v, stack)

theorem foldlM_step_items {items : List Value} (h : ∀ v ∈ items, Reads v) (done : List Value)
    (v : Value) (stack : List Frame) :
    (itemTokens items).foldlM step (.after v, .list done :: stack) =
      some (.after (list (done.reverse ++ v :: items)), stack) := by
  induction items generalizing done v with
  | nil =>
    rw [itemTokens]
    simp [step, resume]
  | cons w items ih =>
    have hcomma : step (.after v, .list done :: stack) .comma =
        some (.value, .list (v :: done) :: stack) := rfl
    rw [itemTokens, foldlM_step_cons hcomma, foldlM_step_append (h w (by simp) _),
      ih fun u hu => h u (by simp [hu])]
    simp

theorem foldlM_step_fields {fields : List (List Nat × Value)} (h : ∀ f ∈ fields, Reads f.2)
    (done : List (List Nat × Value)) (key : List Nat) (v : Value) (stack : List Frame) :
    (fieldTokens fields).foldlM step (.after v, .object done key :: stack) =
      some (.after (object (done.reverse ++ (key, v) :: fields)), stack) := by
  induction fields generalizing done key v with
  | nil =>
    rw [fieldTokens]
    simp [step, resume]
  | cons f fields ih =>
    obtain ⟨name, w⟩ := f
    have hcomma : step (.after v, .object done key :: stack) .comma =
        some (.key ((key, v) :: done), stack) := rfl
    have hkey : step (.key ((key, v) :: done), stack) (.text name) =
        some (.colon ((key, v) :: done) name, stack) := rfl
    have hcolon : step (.colon ((key, v) :: done) name, stack) .colon =
        some (.value, .object ((key, v) :: done) name :: stack) := rfl
    rw [fieldTokens, foldlM_step_cons hcomma, foldlM_step_cons hkey, foldlM_step_cons hcolon,
      foldlM_step_append (h (name, w) (by simp) _), ih fun u hu => h u (by simp [hu])]
    simp

theorem Valid.reads (h : v.Valid) : Reads v := by
  induction h with
  | null =>
    intro stack
    rw [tokens]
    rfl
  | bool b =>
    intro stack
    cases b <;> (rw [tokens]; rfl)
  | @number lexeme strict =>
    intro stack
    rw [tokens]
    simp [step, start, ofWord?_of_strict strict]
  | text units =>
    intro stack
    rw [tokens]
    rfl
  | @list items h ih =>
    intro stack
    have hopen : step (.value, stack) .openList = some (.firstItem, .list [] :: stack) := rfl
    cases items with
    | nil =>
      rw [tokens, foldlM_step_cons hopen]
      rfl
    | cons v items =>
      have hv : v.tokens.foldlM step (.firstItem, .list [] :: stack) =
          some (.after v, .list [] :: stack) :=
        (foldlM_step_firstItem v _).trans (ih v (by simp) _)
      rw [tokens, foldlM_step_cons hopen, foldlM_step_append hv,
        foldlM_step_items fun u hu => ih u (by simp [hu])]
      simp
  | @object fields h ih =>
    intro stack
    have hopen : step (.value, stack) .openObject = some (.firstKey, stack) := rfl
    cases fields with
    | nil =>
      rw [tokens, foldlM_step_cons hopen]
      rfl
    | cons f fields =>
      obtain ⟨key, v⟩ := f
      have hkey : step (.firstKey, stack) (.text key) = some (.colon [] key, stack) := rfl
      have hcolon : step (.colon [] key, stack) .colon =
          some (.value, .object [] key :: stack) := rfl
      rw [tokens, foldlM_step_cons hopen, foldlM_step_cons hkey, foldlM_step_cons hcolon,
        foldlM_step_append (ih (key, v) (by simp) _),
        foldlM_step_fields fun u hu => ih u (by simp [hu])]
      simp

theorem ofTokens?_tokens (h : v.Valid) : ofTokens? v.tokens = some v := by
  simp only [ofTokens?, h.reads []]

/-- Every layout of a value's tokens is read as the value. -/
theorem parse?_of_layout (h : v.Valid) {cs : List Char} (hcs : Layout cs v.tokens) :
    parse? cs = some v := by
  rw [parse?, tokens?_of_layout hcs, Option.bind_eq_bind, Option.bind_some, ofTokens?_tokens h]

end Value

end Bimatrix.Json
