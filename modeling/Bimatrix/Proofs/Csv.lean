import Mathlib.Data.List.Forall2
import Mathlib.Tactic
import Bimatrix.Csv
import Bimatrix.Proofs.Octets

/-! # Sheets of bare fields

A sheet writes rows of fields without quotes: commas between the fields of a line, spaces and tabs
around them, and any of the line ends, with empty lines anywhere.  The scanner reads the rows back.
-/
namespace Bimatrix.Csv

def IsLineEnd (c : Char) : Prop := c = '\n' ∨ c = '\r'

/-- A field, with spaces and tabs around it. -/
def Padded (field cs : List Char) : Prop :=
  ∃ before after, cs = before ++ field ++ after ∧ ∀ c ∈ before ++ after, c = ' ' ∨ c = '\t'

inductive Line : List Char → List (List Char) → Prop
  | last {field cs : List Char} (padded : Padded field cs) : Line cs [field]
  | cons {field cs cs' : List Char} {fields : List (List Char)} (padded : Padded field cs)
      (rest : Line cs' fields) : Line (cs ++ ',' :: cs') (field :: fields)

/-- Lines that end with a line feed, a carriage return or both, the last of them perhaps without an
end.  A line feed after a carriage return is an empty line. -/
inductive Sheet : List Char → List (List (List Char)) → Prop
  | nil : Sheet [] []
  | blank {c : Char} {cs : List Char} {rows : List (List (List Char))} (ends : IsLineEnd c)
      (rest : Sheet cs rows) : Sheet (c :: cs) rows
  | last {cs : List Char} {fields : List (List Char)} (line : Line cs fields) : Sheet cs [fields]
  | line {c : Char} {cs cs' : List Char} {fields : List (List Char)}
      {rows : List (List (List Char))} (line : Line cs fields) (ends : IsLineEnd c)
      (rest : Sheet cs' rows) : Sheet (cs ++ c :: cs') (fields :: rows)

/-- A field that needs no quotes: ASCII characters, and no blank, comma or quote. -/
structure IsBare (field : List Char) : Prop where
  nonempty : field ≠ []
  ascii : IsAscii field
  plain : ∀ c ∈ field, isBlank c = false ∧ c ≠ ',' ∧ c ≠ '"'

variable {field cs : List Char}

theorem isBlank_of_padding {c : Char} (h : c = ' ' ∨ c = '\t') : isBlank c = true := by
  obtain rfl | rfl := h <;> rfl

theorem padded_self (field : List Char) : Padded field field := ⟨[], [], by simp, by simp⟩

theorem Padded.trim_eq (h : Padded field cs) (bare : IsBare field) : trim cs = field := by
  obtain ⟨before, after, rfl, hpadding⟩ := h
  have hblank : ∀ c ∈ before ++ after, isBlank c = true := fun c hc =>
    isBlank_of_padding (hpadding c hc)
  rw [List.forall_mem_append] at hblank
  have hfront : (before ++ field ++ after).dropWhile isBlank = field ++ after := by
    obtain ⟨c, rest, rfl⟩ := List.exists_cons_of_ne_nil bare.nonempty
    have hc := (bare.plain c (by simp)).1
    rw [List.append_assoc, List.dropWhile_append_of_pos hblank.1, List.cons_append,
      List.dropWhile_cons_of_neg (by simp [hc])]
  have hback : (field ++ after).reverse.dropWhile isBlank = field.reverse := by
    obtain ⟨c, rest, hreverse⟩ := List.exists_cons_of_ne_nil (List.reverse_ne_nil_iff.mpr bare.nonempty)
    have hc := (bare.plain c (List.mem_reverse.mp (by rw [hreverse]; simp))).1
    rw [List.reverse_append, List.dropWhile_append_of_pos
      (fun d hd => hblank.2 d (List.mem_reverse.mp hd)), hreverse,
      List.dropWhile_cons_of_neg (by simp [hc])]
  rw [trim, hfront, hback, List.reverse_reverse]

theorem Padded.ne_nil (h : Padded field cs) (bare : IsBare field) : cs ≠ [] := by
  obtain ⟨before, after, rfl, -⟩ := h
  simp [bare.nonempty]

def IsFieldChar (c : Char) : Prop := c.toNat < 128 ∧ c ∉ [',', '"', '\n', '\r']

theorem Padded.isFieldChar (h : Padded field cs) (bare : IsBare field) :
    ∀ c ∈ cs, IsFieldChar c := by
  obtain ⟨before, after, rfl, hpadding⟩ := h
  intro c hc
  by_cases hfield : c ∈ field
  · obtain ⟨hblank, hcomma, hquote⟩ := bare.plain c hfield
    refine ⟨bare.ascii c hfield, ?_⟩
    have hlines : c ≠ '\n' ∧ c ≠ '\r' := by
      constructor <;> (rintro rfl; cases hblank)
    simp [hcomma, hquote, hlines]
  · have hpad : c = ' ' ∨ c = '\t' := hpadding c (by simp only [List.mem_append] at hc ⊢; tauto)
    obtain rfl | rfl := hpad <;> exact ⟨by decide, by decide⟩

theorem toUInt8_ne {c d : Char} (hc : c.toNat < 128) (hd : d.toNat < 128) (h : c ≠ d) :
    c.toUInt8 ≠ d.toUInt8 := by
  intro heq
  apply h
  have hnat := congrArg UInt8.toNat heq
  have hmod (e : Char) (he : e.toNat < 128) : e.toUInt8.toNat = e.toNat :=
    Nat.mod_eq_of_lt (he.trans (by decide))
  rw [hmod c hc, hmod d hd] at hnat
  exact Char.toNat_inj.mp hnat

variable {s : Scanner} {p : Place} {fields : Record} {done : List Record}

theorem bare_of_isFieldChar {c : Char} (h : IsFieldChar c) (s : Scanner) :
    s.bare c.toUInt8 = s.push .plain c.toUInt8 := by
  obtain ⟨hascii, hnot⟩ := h
  simp only [List.mem_cons, List.not_mem_nil, or_false, not_or] at hnot
  obtain ⟨hcomma, -, hfeed, hreturn⟩ := hnot
  have hcomma' : c.toUInt8 ≠ comma := toUInt8_ne (d := ',') hascii (by decide) hcomma
  have hfeed' : c.toUInt8 ≠ lineFeed := toUInt8_ne (d := '\n') hascii (by decide) hfeed
  have hreturn' : c.toUInt8 ≠ carriageReturn := toUInt8_ne (d := '\r') hascii (by decide) hreturn
  rw [Scanner.bare, if_neg hcomma', if_neg (not_or.mpr ⟨hfeed', hreturn'⟩)]

theorem step_of_isFieldChar {c : Char} (h : IsFieldChar c)
    (hs : s.place = .recordStart ∨ s.place = .fieldStart ∨ s.place = .plain) :
    s.step c.toUInt8 = s.push .plain c.toUInt8 := by
  have hbare := bare_of_isFieldChar h s
  obtain ⟨hascii, hnot⟩ := h
  simp only [List.mem_cons, List.not_mem_nil, or_false, not_or] at hnot
  obtain ⟨-, hquote, hfeed, hreturn⟩ := hnot
  have hquote' : c.toUInt8 ≠ quote := toUInt8_ne (d := '"') hascii (by decide) hquote
  have hfeed' : c.toUInt8 ≠ lineFeed := toUInt8_ne (d := '\n') hascii (by decide) hfeed
  have hreturn' : c.toUInt8 ≠ carriageReturn := toUInt8_ne (d := '\r') hascii (by decide) hreturn
  obtain hplace | hplace | hplace := hs
  · simp only [Scanner.step, hplace, hquote', hfeed', hreturn', or_self, if_false, hbare]
  · simp only [Scanner.step, hplace, hquote', if_false, hbare]
  · simp only [Scanner.step, hplace, hbare]

theorem foldl_step_plain (h : ∀ c ∈ cs, IsFieldChar c) (f : Field) :
    (cs.map Char.toUInt8).foldl Scanner.step ⟨.plain, f, fields, done⟩ =
      ⟨.plain, (cs.map Char.toUInt8).reverse ++ f, fields, done⟩ := by
  induction cs generalizing f with
  | nil => rfl
  | cons c cs ih =>
    rw [List.forall_mem_cons] at h
    rw [List.map_cons, List.foldl_cons, step_of_isFieldChar h.1 (.inr (.inr rfl)), Scanner.push,
      ih h.2, List.reverse_cons, List.append_assoc]
    rfl

theorem foldl_step_field (hp : p = .recordStart ∨ p = .fieldStart) (nonempty : cs ≠ [])
    (h : ∀ c ∈ cs, IsFieldChar c) :
    (cs.map Char.toUInt8).foldl Scanner.step ⟨p, [], fields, done⟩ =
      ⟨.plain, (cs.map Char.toUInt8).reverse, fields, done⟩ := by
  obtain ⟨c, cs, rfl⟩ := List.exists_cons_of_ne_nil nonempty
  rw [List.forall_mem_cons] at h
  rw [List.map_cons, List.foldl_cons, step_of_isFieldChar h.1 (hp.imp_right .inl), Scanner.push,
    foldl_step_plain h.2, List.reverse_cons]

theorem step_comma (f : Field) : Scanner.step ⟨.plain, f, fields, done⟩ (Char.toUInt8 ',') =
    ⟨.fieldStart, [], f.reverse :: fields, done⟩ := rfl

def Reads (field : List Char) (f : Field) : Prop := ∃ cs, Padded field cs ∧ f = cs.map Char.toUInt8

/-- Behind a line the scanner holds its fields, the last of them still open. -/
theorem foldl_step_line {row : List (List Char)} (h : Line cs row) (bare : ∀ field ∈ row, IsBare field)
    (hp : p = .recordStart ∨ p = .fieldStart) (fields : Record) (done : List Record) :
    ∃ s r, (cs.map Char.toUInt8).foldl Scanner.step ⟨p, [], fields, done⟩ = s ∧ s.place = .plain ∧
      s.endRecord = ⟨.recordStart, [], [], (fields.reverse ++ r) :: done⟩ ∧
        List.Forall₂ Reads row r := by
  induction h generalizing p fields with
  | @last field cs padded =>
    have hfield := bare field (List.mem_singleton_self field)
    refine ⟨_, [cs.map Char.toUInt8],
      foldl_step_field hp (padded.ne_nil hfield) (padded.isFieldChar hfield), rfl, ?_,
      .cons ⟨cs, padded, rfl⟩ .nil⟩
    simp [Scanner.endRecord]
  | @cons field cs cs' row padded rest ih =>
    rw [List.forall_mem_cons] at bare
    obtain ⟨s, r, hs, hplace, hend, hreads⟩ :=
      ih bare.2 (.inr rfl) (cs.map Char.toUInt8 :: fields)
    refine ⟨s, cs.map Char.toUInt8 :: r, ?_, hplace, ?_, .cons ⟨cs, padded, rfl⟩ hreads⟩
    · rw [List.map_append, List.map_cons, List.foldl_append,
        foldl_step_field hp (padded.ne_nil bare.1) (padded.isFieldChar bare.1), List.foldl_cons,
        step_comma, List.reverse_reverse]
      exact hs
    · rw [hend, List.reverse_cons, List.append_assoc, List.singleton_append]

theorem step_of_isLineEnd {c : Char} (h : IsLineEnd c) (hs : s.place = .plain) :
    s.step c.toUInt8 = s.endRecord := by
  obtain rfl | rfl := h <;> simp only [Scanner.step, hs] <;> rfl

variable {rows : List (List (List Char))}

theorem finish_foldl_sheet (h : Sheet cs rows) (bare : ∀ row ∈ rows, ∀ field ∈ row, IsBare field)
    (done : List Record) :
    ∃ rs, ((cs.map Char.toUInt8).foldl Scanner.step ⟨.recordStart, [], [], done⟩).finish =
      done.reverse ++ rs ∧ List.Forall₂ (List.Forall₂ Reads) rows rs := by
  induction h generalizing done with
  | nil => exact ⟨[], by simp [Scanner.finish], .nil⟩
  | @blank c cs rows ends rest ih =>
    have hstep : Scanner.step ⟨.recordStart, [], [], done⟩ c.toUInt8 =
        ⟨.recordStart, [], [], done⟩ := by
      obtain rfl | rfl := ends <;> rfl
    rw [List.map_cons, List.foldl_cons, hstep]
    exact ih bare done
  | @last cs row line =>
    obtain ⟨s, r, hs, hplace, hend, hreads⟩ :=
      foldl_step_line line (bare row (List.mem_singleton_self row)) (.inl rfl) [] done
    refine ⟨[r], ?_, .cons hreads .nil⟩
    rw [hs, Scanner.finish, if_neg (by rw [hplace]; decide), hend]
    simp
  | @line c cs cs' row rows line ends rest ih =>
    rw [List.forall_mem_cons] at bare
    obtain ⟨s, r, hs, hplace, hend, hreads⟩ := foldl_step_line line bare.1 (.inl rfl) [] done
    obtain ⟨rs, hrs, hreads'⟩ := ih bare.2 (r :: done)
    refine ⟨r :: rs, ?_, .cons hreads hreads'⟩
    rw [List.map_append, List.map_cons, List.foldl_append, hs, List.foldl_cons,
      step_of_isLineEnd ends hplace, hend, List.reverse_nil, List.nil_append, hrs]
    simp

theorem Line.isAscii {row : List (List Char)} (h : Line cs row)
    (bare : ∀ field ∈ row, IsBare field) : IsAscii cs := by
  induction h with
  | @last field cs padded =>
    exact fun c hc => (padded.isFieldChar (bare field (List.mem_singleton_self field)) c hc).1
  | cons padded rest ih =>
    rw [List.forall_mem_cons] at bare
    refine List.forall_mem_append.mpr ⟨fun c hc => (padded.isFieldChar bare.1 c hc).1, ?_⟩
    exact List.forall_mem_cons.mpr ⟨by decide, ih bare.2⟩

theorem Sheet.isAscii (h : Sheet cs rows) (bare : ∀ row ∈ rows, ∀ field ∈ row, IsBare field) :
    IsAscii cs := by
  have hend {c : Char} (h : IsLineEnd c) : c.toNat < 128 := by
    obtain rfl | rfl := h <;> decide
  induction h with
  | nil => exact fun c hc => by cases hc
  | blank ends rest ih => exact List.forall_mem_cons.mpr ⟨hend ends, ih bare⟩
  | @last cs row line => exact line.isAscii (bare row (List.mem_singleton_self row))
  | line line ends rest ih =>
    rw [List.forall_mem_cons] at bare
    refine List.forall_mem_append.mpr ⟨line.isAscii bare.1, ?_⟩
    exact List.forall_mem_cons.mpr ⟨hend ends, ih bare.2⟩

/-- ASCII text has no byte order mark. -/
theorem body_of_isAscii (h : IsAscii cs) : body (cs.map Char.toUInt8) = cs.map Char.toUInt8 := by
  unfold body
  split
  next bs heq =>
    obtain ⟨c, rest, rfl, hc, -⟩ := List.map_eq_cons_iff.mp heq
    have hlt := h c (by simp)
    have hnat : c.toUInt8.toNat = c.toNat := Nat.mod_eq_of_lt (hlt.trans (by decide))
    rw [hc] at hnat
    exact absurd hlt (by rw [← hnat]; decide)
  next => rfl

/-- The records of a sheet are its rows. -/
theorem records_of_sheet (h : Sheet cs rows) (bare : ∀ row ∈ rows, ∀ field ∈ row, IsBare field) :
    List.Forall₂ (List.Forall₂ Reads) rows (records (String.ofList cs).toUTF8.toList) := by
  have hascii := h.isAscii bare
  obtain ⟨rs, hrs, hreads⟩ := finish_foldl_sheet h bare []
  rw [records, hascii.toList_toUTF8, body_of_isAscii hascii]
  exact hrs ▸ hreads

/-- The text of a field is the field when the padding is trimmed. -/
theorem Reads.text?_eq {f : Field} (h : Reads field f) (bare : IsBare field) :
    ∃ text, text? f = some text ∧ trim text.toList = field := by
  obtain ⟨cs, padded, rfl⟩ := h
  have hascii : IsAscii cs := fun c hc => (padded.isFieldChar bare c hc).1
  refine ⟨String.ofList cs, hascii.fromUTF8?_map_toUInt8, ?_⟩
  rw [String.toList_ofList, padded.trim_eq bare]

end Bimatrix.Csv
