import Mathlib.Tactic
import Bimatrix.Json.Token

/-! # Laid out tokens

A text is a layout of some tokens if it spells them in order, with blanks anywhere between them.  The
scanner reads the tokens back from every layout.
-/
namespace Bimatrix.Json

/-- The text between the quotes that stands for some units: plain characters, escapes by letter and
escapes by number. -/
inductive Spells : List Char → List Nat → Prop
  | nil : Spells [] []
  | plain {c : Char} {cs : List Char} {units : List Nat} (quote : c ≠ '"') (escape : c ≠ '\\')
      (control : 32 ≤ c.toNat) (rest : Spells cs units) : Spells (c :: cs) (c.toNat :: units)
  | letter {c : Char} {u : Nat} {cs : List Char} {units : List Nat} (escaped : escaped? c = some u)
      (rest : Spells cs units) : Spells ('\\' :: c :: cs) (u :: units)
  | code {a b c d : Char} {i j k l : Nat} {cs : List Char} {units : List Nat}
      (first : hexDigit? a = some i) (second : hexDigit? b = some j)
      (third : hexDigit? c = some k) (fourth : hexDigit? d = some l) (rest : Spells cs units) :
      Spells ('\\' :: 'u' :: a :: b :: c :: d :: cs)
        ((16 * (16 * (16 * (16 * 0 + i) + j) + k) + l) :: units)

/-- What holds of every character of a text is decided along the text, not over all characters. -/
instance decidableForallMem (cs : List Char) (P : Char → Prop) [DecidablePred P] :
    Decidable (∀ c ∈ cs, P c) :=
  List.decidableBAll P cs

def IsWordChar (c : Char) : Prop := isBlank c = false ∧ c ≠ '"' ∧ mark? c = none

instance (c : Char) : Decidable (IsWordChar c) := inferInstanceAs (Decidable (_ ∧ _ ∧ _))

inductive Token.Spelled : Token → List Char → Prop
  | mark {t : Token} {c : Char} (h : mark? c = some t) : Spelled t [c]
  | text {units : List Nat} {cs : List Char} (h : Spells cs units) :
      Spelled (.text units) ('"' :: (cs ++ ['"']))
  | word {cs : List Char} (nonempty : cs ≠ []) (h : ∀ c ∈ cs, IsWordChar c) : Spelled (.word cs) cs

def EndsWord : List Char → Prop
  | [] => True
  | c :: _ => ¬IsWordChar c

/-- A text that spells tokens with blanks anywhere between them. -/
inductive Layout : List Char → List Token → Prop
  | nil : Layout [] []
  | blank {c : Char} {cs : List Char} {ts : List Token} (h : isBlank c = true)
      (rest : Layout cs ts) : Layout (c :: cs) ts
  | token {t : Token} {lexeme cs : List Char} {ts : List Token} (spelled : t.Spelled lexeme)
      (ends : ∀ w, t = .word w → EndsWord cs) (rest : Layout cs ts) :
      Layout (lexeme ++ cs) (t :: ts)

theorem not_isWordChar_of_mark {c : Char} {t : Token} (h : mark? c = some t) : ¬IsWordChar c := by
  rintro ⟨-, -, hnone⟩
  rw [h] at hnone
  cases hnone

theorem isBlank_of_mark {c : Char} {t : Token} (h : mark? c = some t) : isBlank c = false := by
  unfold mark? at h
  split_ifs at h <;> subst c <;> rfl

theorem ne_quote_of_mark {c : Char} {t : Token} (h : mark? c = some t) : c ≠ '"' := by
  rintro rfl
  cases h

theorem flush_nil (out : List Token) : flush [] out = out := rfl

theorem flush_reverse {w : List Char} (h : w ≠ []) (out : List Token) :
    flush w.reverse out = .word w :: out := by
  unfold flush
  rw [if_neg (by simpa using h), List.reverse_reverse]

theorem scan_blank {c : Char} (h : isBlank c = true) (w : List Char) (out : List Token) :
    scan (.outside w, out) c = some (.outside [], flush w out) := by
  simp only [scan, h, if_true]

theorem scan_quote (w : List Char) (out : List Token) :
    scan (.outside w, out) '"' = some (.inside [], flush w out) := rfl

theorem scan_mark {c : Char} {t : Token} (h : mark? c = some t) (w : List Char)
    (out : List Token) :
    scan (.outside w, out) c = some (.outside [], t :: flush w out) := by
  simp [scan, h, isBlank_of_mark h, ne_quote_of_mark h]

theorem scan_wordChar {c : Char} (h : IsWordChar c) (w : List Char) (out : List Token) :
    scan (.outside w, out) c = some (.outside (c :: w), out) := by
  obtain ⟨hblank, hquote, hmark⟩ := h
  simp [scan, hblank, hquote, hmark]

/-- A character that ends a word is read as if the word had ended before. -/
theorem scan_of_not_isWordChar {c : Char} (h : ¬IsWordChar c) (w : List Char)
    (out : List Token) : scan (.outside w, out) c = scan (.outside [], flush w out) c := by
  unfold IsWordChar at h
  cases hmark : mark? c with
  | some t => rw [scan_mark hmark, scan_mark hmark, flush_nil]
  | none =>
    by_cases hblank : isBlank c = true
    · rw [scan_blank hblank, scan_blank hblank, flush_nil]
    · by_cases hquote : c = '"'
      · rw [hquote, scan_quote, scan_quote, flush_nil]
      · exact absurd ⟨by simpa using hblank, hquote, hmark⟩ h

theorem scan_code {c : Char} {d : Nat} (h : hexDigit? c = some d) (units : List Nat)
    (value left : Nat) (out : List Token) :
    scan (.code units value (left + 1), out) c = some (.code units (16 * value + d) left, out) := by
  simp only [scan, h, Option.map_some]

theorem scan_lastCode {c : Char} {d : Nat} (h : hexDigit? c = some d) (units : List Nat)
    (value : Nat) (out : List Token) :
    scan (.code units value 0, out) c = some (.inside ((16 * value + d) :: units), out) := by
  simp only [scan, h, Option.map_some]

theorem foldlM_scan_cons {s s' : Place × List Token} {c : Char} (h : scan s c = some s')
    (cs : List Char) : (c :: cs).foldlM scan s = cs.foldlM scan s' := by
  rw [List.foldlM_cons, h]
  rfl

theorem foldlM_scan_append {s s' : Place × List Token} {cs : List Char}
    (h : cs.foldlM scan s = some s') (cs' : List Char) :
    (cs ++ cs').foldlM scan s = cs'.foldlM scan s' := by
  rw [List.foldlM_append, h]
  rfl

theorem foldlM_scan_word {cs : List Char} (h : ∀ c ∈ cs, IsWordChar c) (w : List Char)
    (out : List Token) :
    cs.foldlM scan (.outside w, out) = some (.outside (cs.reverse ++ w), out) := by
  induction cs generalizing w with
  | nil => rfl
  | cons c cs ih =>
    rw [foldlM_scan_cons (scan_wordChar (h c (by simp)) w out),
      ih (fun c hc => h c (by simp [hc]))]
    simp

theorem foldlM_scan_spells {cs : List Char} {units : List Nat} (h : Spells cs units)
    (before : List Nat) (out : List Token) :
    cs.foldlM scan (.inside before, out) = some (.inside (units.reverse ++ before), out) := by
  have hslash (before : List Nat) :
      scan (.inside before, out) '\\' = some (.escape before, out) := rfl
  induction h generalizing before with
  | nil => rfl
  | @plain c cs units hquote hescape hcontrol rest ih =>
    have hscan : scan (.inside before, out) c = some (.inside (c.toNat :: before), out) := by
      simp [scan, hquote, hescape, Nat.not_lt.mpr hcontrol]
    rw [foldlM_scan_cons hscan, ih]
    simp
  | @letter c u cs units hescaped rest ih =>
    have hu : c ≠ 'u' := by
      rintro rfl
      cases hescaped
    have hscan : scan (.escape before, out) c = some (.inside (u :: before), out) := by
      simp [scan, hu, hescaped]
    rw [foldlM_scan_cons (hslash before), foldlM_scan_cons hscan, ih]
    simp
  | @code a b c d i j k l cs units ha hb hc hd rest ih =>
    have hu : scan (.escape before, out) 'u' = some (.code before 0 3, out) := rfl
    rw [foldlM_scan_cons (hslash before), foldlM_scan_cons hu, foldlM_scan_cons (scan_code ha ..),
      foldlM_scan_cons (scan_code hb ..), foldlM_scan_cons (scan_code hc ..),
      foldlM_scan_cons (scan_lastCode hd ..), ih]
    simp

/-- Scanning a layout leaves its tokens, the latest first, the last word perhaps still open. -/
theorem foldlM_scan_layout {cs : List Char} {ts : List Token} (h : Layout cs ts)
    (out : List Token) : ∃ w out', cs.foldlM scan (.outside [], out) = some (.outside w, out') ∧
      flush w out' = ts.reverse ++ out := by
  induction h generalizing out with
  | nil => exact ⟨[], out, rfl, rfl⟩
  | blank hblank rest ih =>
    rw [foldlM_scan_cons (scan_blank hblank [] out)]
    exact ih out
  | @token t lexeme cs ts spelled ends rest ih =>
    have hreverse : (t :: ts).reverse ++ out = ts.reverse ++ (t :: out) := by simp
    rw [hreverse]
    cases spelled with
    | mark hmark =>
      rw [List.singleton_append, foldlM_scan_cons (scan_mark hmark [] out)]
      exact ih (t :: out)
    | @text units body hspells =>
      have hquote : scan (.inside (units.reverse ++ []), out) '"' =
          some (.outside [], .text units :: out) := by simp [scan]
      rw [List.cons_append, foldlM_scan_cons (scan_quote [] out), flush_nil,
        List.append_assoc, foldlM_scan_append (foldlM_scan_spells hspells [] out), List.singleton_append,
        foldlM_scan_cons hquote]
      exact ih (.text units :: out)
    | word hne hword =>
      rw [foldlM_scan_append (foldlM_scan_word hword [] out), List.append_nil]
      obtain ⟨w, out', hfold, hflush⟩ := ih (.word lexeme :: out)
      cases cs with
      | nil =>
        cases hfold
        exact ⟨_, out, rfl, (flush_reverse hne out).trans hflush⟩
      | cons c cs =>
        refine ⟨w, out', ?_, hflush⟩
        rw [List.foldlM_cons, scan_of_not_isWordChar (ends _ rfl), flush_reverse hne,
          ← List.foldlM_cons]
        exact hfold

theorem tokens?_of_layout {cs : List Char} {ts : List Token} (h : Layout cs ts) :
    tokens? cs = some ts := by
  obtain ⟨w, out, hfold, hflush⟩ := foldlM_scan_layout h []
  simp only [tokens?, hfold, hflush, List.append_nil, List.reverse_reverse]

theorem Layout.blanks {gap cs : List Char} {ts : List Token} (h : ∀ c ∈ gap, isBlank c = true)
    (rest : Layout cs ts) : Layout (gap ++ cs) ts := by
  induction gap with
  | nil => exact rest
  | cons c gap ih => exact .blank (h c (by simp)) (ih fun c hc => h c (by simp [hc]))

theorem Layout.mark {t : Token} {c : Char} {cs : List Char} {ts : List Token}
    (h : mark? c = some t) (rest : Layout cs ts) : Layout (c :: cs) (t :: ts) := by
  refine @Layout.token t [c] cs ts (.mark h) ?_ rest
  rintro w rfl
  unfold mark? at h
  split_ifs at h <;> cases h

theorem isWordChar_of_notMem {c : Char}
    (h : c ∉ [' ', '\t', '\n', '\r', '"', '\x7b', '\x7d', '[', ']', ',', ':']) : IsWordChar c := by
  simp only [List.mem_cons, List.not_mem_nil, or_false, not_or] at h
  simp [IsWordChar, isBlank, mark?, h]

def IsPlain (c : Char) : Prop := c ≠ '"' ∧ c ≠ '\\' ∧ 32 ≤ c.toNat

instance (c : Char) : Decidable (IsPlain c) := inferInstanceAs (Decidable (_ ∧ _ ∧ _))

theorem spells_map_toNat {name : List Char} (h : ∀ c ∈ name, IsPlain c) :
    Spells name (name.map Char.toNat) := by
  induction name with
  | nil => exact .nil
  | cons c name ih =>
    obtain ⟨hquote, hescape, hcontrol⟩ := h c (by simp)
    exact .plain hquote hescape hcontrol (ih fun d hd => h d (by simp [hd]))

theorem Layout.key {name cs : List Char} {ts : List Token} (h : ∀ c ∈ name, IsPlain c)
    (rest : Layout cs ts) :
    Layout ('"' :: (name ++ '"' :: cs)) (.text (name.map Char.toNat) :: ts) := by
  have hlayout := Layout.token (.text (spells_map_toNat h)) (fun w hw => by cases hw) rest
  rwa [List.cons_append, List.append_assoc] at hlayout

theorem Layout.word {lexeme cs : List Char} {ts : List Token} (nonempty : lexeme ≠ [])
    (h : ∀ c ∈ lexeme, IsWordChar c) (ends : EndsWord cs) (rest : Layout cs ts) :
    Layout (lexeme ++ cs) (.word lexeme :: ts) :=
  .token (.word nonempty h) (fun _ _ => ends) rest

end Bimatrix.Json
