import Mathlib
import Bimatrix.Document
import Bimatrix.Proofs.Decimal.Numeral
import Bimatrix.Proofs.Directory
import Bimatrix.Proofs.Json.Record
import Bimatrix.Proofs.Json.Value
import Bimatrix.Proofs.Octets

/-! # Settings on file

Settings that are written to a file are read back unchanged, and so is every other layout of them: with
blanks anywhere between the tokens, with the two keys in either order, or as a list.
-/
namespace Bimatrix

namespace Json

theorem isWordChar_of_isDigit {c : Char} (h : c.isDigit = true) : IsWordChar c := by
  refine isWordChar_of_notMem fun hmem => ?_
  have hother : ∀ d ∈ [' ', '\t', '\n', '\r', '"', '\x7b', '\x7d', '[', ']', ',', ':'],
      d.isDigit = false := by decide
  rw [hother c hmem] at h
  cases h

theorem Layout.natural (n : ℕ) {cs : List Char} {ts : List Token} (ends : EndsWord cs)
    (rest : Layout cs ts) :
    Layout (Nat.toDigits 10 n ++ cs) (.word (Nat.toDigits 10 n) :: ts) :=
  .word Nat.toDigits_ne_nil (fun _ hc => isWordChar_of_isDigit (Numeral.isDigit_of_mem_toDigits hc))
    ends rest

namespace Value

def ofWord64 (k : UInt64) : Value := number (Nat.toDigits 10 k.toNat)

def kind : Start → String × UInt64
  | .label k => ("Label", k)
  | .seed k => ("Seed", k)

def ofStart (s : Start) : Value :=
  object [((kind s).1.toList.map Char.toNat, ofWord64 (kind s).2)]

theorem word64?_ofWord64 (k : UInt64) : (ofWord64 k).word64? = some k := by
  simp only [ofWord64, word64?, Numeral.digits_toDigits, Numeral.ofDigits_toDigits,
    if_pos k.toNat_lt_size, UInt64.ofNat_toNat]

theorem start?_ofStart (s : Start) : (ofStart s).start? = some s := by
  simp only [ofStart, start?, decode?_map_toNat, word64?_ofWord64, Option.bind_eq_bind,
    Option.bind_some]
  cases s with
  | label k => exact if_pos rfl
  | seed k => exact (if_neg (show "Seed".toList ≠ "Label".toList by decide)).trans (if_pos rfl)

theorem valid_ofWord64 (k : UInt64) : (ofWord64 k).Valid := by
  refine .number ?_
  rw [Numeral.ofStrict?_toDigits]
  rfl

theorem valid_ofStart (s : Start) : (ofStart s).Valid := by
  exact .object (by simpa using valid_ofWord64 _)

end Value

end Json

namespace Solver

open Json Json.Value

/-- The ways to arrange the two settings: an object with its keys in either order, or a list. -/
inductive Arranged (s : Solver) : Value → Prop
  | object : Arranged s (.object [("warm_start".toList.map Char.toNat, ofStart s.start),
      ("max_iterations".toList.map Char.toNat, ofWord64 s.bound)])
  | swapped : Arranged s (.object [("max_iterations".toList.map Char.toNat, ofWord64 s.bound),
      ("warm_start".toList.map Char.toNat, ofStart s.start)])
  | list : Arranged s (.list [ofStart s.start, ofWord64 s.bound])

variable {s : Solver} {v : Value}

theorem Arranged.valid (h : s.Arranged v) : v.Valid := by
  have hstart := valid_ofStart s.start
  have hbound := valid_ofWord64 s.bound
  cases h with
  | object => exact .object (by simp [hstart, hbound])
  | swapped => exact .object (by simp [hstart, hbound])
  | list => exact .list (by simp [hstart, hbound])

theorem Arranged.record?_eq (h : s.Arranged v) :
    v.record? ["warm_start".toList, "max_iterations".toList] =
      some [ofStart s.start, ofWord64 s.bound] := by
  have hne : "warm_start".toList ≠ "max_iterations".toList := by decide
  cases h with
  | object => exact (record?_pair hne _ _).1
  | swapped => exact (record?_pair hne _ _).2
  | list => exact record?_list rfl

theorem Arranged.solver?_eq (h : s.Arranged v) : v.solver? = some s := by
  simp only [solver?, h.record?_eq, start?_ofStart, word64?_ofWord64, Option.bind_eq_bind,
    Option.bind_some, Option.pure_def]

theorem ofJson?_of_layout (h : s.Arranged v) {cs : List Char} (hcs : Layout cs v.tokens)
    (path : String) : ofJson? path (some (String.ofList cs).toUTF8) = .ok s := by
  simp only [ofJson?, Option.bind_some, fromUTF8?_toUTF8, String.toList_ofList,
    parse?_of_layout h.valid hcs, h.solver?_eq]

theorem text_eq (s : Solver) :
    s.text.toList = '\x7b' :: ("\n  ".toList ++ '"' :: ("warm_start".toList ++ '"' :: ':' :: ' ' ::
      '\x7b' :: ("\n    ".toList ++ '"' :: ((kind s.start).1.toList ++ '"' :: ':' :: ' ' ::
        (Nat.toDigits 10 (kind s.start).2.toNat ++ '\n' :: ' ' :: ' ' :: '\x7d' :: ',' ::
          ("\n  ".toList ++ '"' :: ("max_iterations".toList ++ '"' :: ':' :: ' ' ::
            (Nat.toDigits 10 s.bound.toNat ++ ['\n', '\x7d'])))))))) := by
  have htext : s.text = "\x7b\n  \"warm_start\": \x7b\n    \"" ++ (kind s.start).1 ++ "\": " ++
      toString (kind s.start).2.toNat ++ "\n  \x7d,\n  \"max_iterations\": " ++
        toString s.bound.toNat ++ "\n\x7d" := by
    unfold text kind
    cases s.start <;> rfl
  rw [htext]
  simp only [String.toList_append, Nat.toString_eq_repr, Nat.toList_repr, List.append_assoc]
  rfl

/-- The written text is a layout of the object with its keys in the order of the settings. -/
theorem layout_text (s : Solver) :
    ∃ v, s.Arranged v ∧ Layout s.text.toList v.tokens := by
  refine ⟨_, .object, ?_⟩
  have hplain : ∀ c ∈ (kind s.start).1.toList, IsPlain c := by
    cases s.start with
    | label k => exact (by decide : ∀ c ∈ "Label".toList, IsPlain c)
    | seed k => exact (by decide : ∀ c ∈ "Seed".toList, IsPlain c)
  have hends {cs : List Char} : EndsWord ('\n' :: cs) := fun h => by cases h.1
  rw [text_eq]
  simp only [Value.tokens, ofStart, ofWord64, fieldTokens, List.cons_append, List.nil_append]
  refine .mark rfl (.blanks (by decide) (.key (by decide) (.mark rfl (.blank rfl ?_))))
  refine .mark rfl (.blanks (by decide) (.key hplain (.mark rfl (.blank rfl ?_))))
  refine .natural _ hends (.blank rfl (.blank rfl (.blank rfl (.mark rfl (.mark rfl ?_)))))
  refine .blanks (by decide) (.key (by decide) (.mark rfl (.blank rfl ?_)))
  exact .natural _ hends (.blank rfl (.mark rfl .nil))

/-- Settings come back from the file that they were saved in, whatever else the directory holds.  The
saved text is a layout of an object; they are read likewise from every layout, with any blanks
between the tokens, of an object with its keys in either order and of the list of the two. -/
theorem ofJson?_save? (s : Solver) (path : String) :
    (∀ d d', s.save? d path = .ok d' → ofJson? path (d'.read? path) = .ok s) ∧
      (∃ v, s.Arranged v ∧ Layout s.text.toList v.tokens) ∧
      ∀ v, s.Arranged v → ∀ cs, Layout cs v.tokens →
        ofJson? path (some (String.ofList cs).toUTF8) = .ok s := by
  obtain ⟨v, harranged, hlayout⟩ := s.layout_text
  refine ⟨fun d d' hsave => ?_, ⟨v, harranged, hlayout⟩,
    fun v harranged cs hcs => ofJson?_of_layout harranged hcs path⟩
  have hwrite : d.write? path s.text.toUTF8 = some d' := by
    unfold save? at hsave
    split at hsave
    next hwritten => rw [hwritten, Except.ok.inj hsave]
    next => cases hsave
  rw [Directory.read?_of_write? hwrite]
  have hread := ofJson?_of_layout harranged hlayout path
  rwa [String.ofList_toList] at hread

/-- The largest seed without a pivot, saved in an empty directory, and the same settings as a list
with a tabulator before its comma. -/
theorem ofJson?_save?_largestSeed :
    (∃ d', save? ⟨.seed 18446744073709551615, 0⟩ {} "f" = .ok d' ∧
      ofJson? "f" (d'.read? "f") = .ok ⟨.seed 18446744073709551615, 0⟩) ∧
      ofJson? "f" (some (String.ofList
        "[\x7b\"Seed\":18446744073709551615\x7d\t,0]".toList).toUTF8) =
          .ok ⟨.seed 18446744073709551615, 0⟩ := by
  have hresult := ofJson?_save? ⟨.seed 18446744073709551615, 0⟩ "f"
  constructor
  · have hwrite (content : ByteArray) : (Directory.write? {} "f" content).isSome = true := by cbv
    obtain ⟨d', hd'⟩ := Option.isSome_iff_exists.mp
      (hwrite (text ⟨.seed 18446744073709551615, 0⟩).toUTF8)
    have hsave : save? ⟨.seed 18446744073709551615, 0⟩ {} "f" = .ok d' := by
      rw [save?, hd']
    exact ⟨d', hsave, hresult.1 {} d' hsave⟩
  · have htext : "[\x7b\"Seed\":18446744073709551615\x7d\t,0]".toList =
        '[' :: '\x7b' :: '"' :: ("Seed".toList ++ '"' :: ':' ::
          (Nat.toDigits 10 18446744073709551615 ++ '\x7d' :: '\t' :: ',' ::
            (Nat.toDigits 10 0 ++ [']']))) := by decide +kernel
    have hends {c : Char} {t : Token} {cs : List Char} (h : mark? c = some t) :
        EndsWord (c :: cs) := not_isWordChar_of_mark h
    rw [htext]
    refine hresult.2.2 _ .list _ ?_
    simp only [Value.tokens, ofStart, ofWord64, itemTokens, fieldTokens, kind]
    refine .mark rfl (.mark rfl (.key (by decide) (.mark rfl ?_)))
    refine .natural _ (hends rfl) (.mark rfl (.blank rfl (.mark rfl ?_)))
    exact .natural 0 (hends rfl) (.mark rfl .nil)

end Solver

end Bimatrix
