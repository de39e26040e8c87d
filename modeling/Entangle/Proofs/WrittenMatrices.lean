import Mathlib
import Entangle.Matrix.Written
import Entangle.Proofs.DenseStorage
import Entangle.Proofs.ImaginaryUnit

/-!
# Reading a matrix

What a text says is defined apart from the functions that read it: a text has lines, a line has entries between
separators, and a matrix is read where the lines that are not passed over have entries, all of them numbers, in equal
positive counts. Entries are read before shapes are compared, so the first entry that is no number is reported even
where a row before it has the wrong length. Only the entries count: lines that are passed over, carriage returns and
the choice of separators do not change what is read.
-/

namespace Entangle

namespace Text

theorem trimChars_append_blank {c : Char} (blank : isBlank c = true) (cs : List Char) :
    trimChars (cs ++ [c]) = trimChars cs := by
  rw [trimChars, trimChars, List.dropWhile_append]
  split
  next empty =>
    rw [List.isEmpty_iff.mp empty]
    simp [blank]
  next => simp [blank]

/-- A character that is not blank stays in front. -/
theorem trimChars_cons {c : Char} (inked : isBlank c = false) (cs : List Char) :
    ∃ rest, trimChars (c :: cs) = c :: rest := by
  obtain ⟨before, after, split, blank, blank'⟩ := trimChars_spec (c :: cs)
  cases before with
  | cons d before =>
    obtain rfl := (List.cons.inj split).1
    rw [blank c (by simp)] at inked
    cases inked
  | nil =>
    cases trimmed : trimChars (c :: cs) with
    | cons d rest =>
      rw [trimmed] at split
      obtain rfl := (List.cons.inj split).1
      exact ⟨rest, rfl⟩
    | nil =>
      rw [trimmed] at split
      rw [blank' c (by simp [← show c :: cs = after from split])] at inked
      cases inked

end Text

section Results

variable {ε β γ : Type} {f : β → Except ε γ}

theorem mapM_eq_ok {xs : List β} {ys : List γ} :
    xs.mapM f = .ok ys ↔ List.Forall₂ (fun x y => f x = .ok y) xs ys := by
  induction xs generalizing ys with
  | nil =>
    rw [List.mapM_nil, List.forall₂_nil_left_iff]
    exact ⟨fun same => (Except.ok.inj same).symm, fun same => congrArg Except.ok same.symm⟩
  | cons x xs ih =>
    rw [List.mapM_cons, bind_eq_ok]
    constructor
    · rintro ⟨y, head, rest⟩
      obtain ⟨ys, tail, same⟩ := bind_eq_ok.mp rest
      obtain rfl := Except.ok.inj same
      exact .cons head (ih.mp tail)
    · rintro (_ | ⟨head, tail⟩)
      exact ⟨_, head, bind_eq_ok.mpr ⟨_, ih.mpr tail, rfl⟩⟩

/-- The first element that fails decides. -/
theorem mapM_eq_error {xs : List β} {e : ε} : xs.mapM f = .error e ↔
    ∃ prior x later, xs = prior ++ x :: later ∧ (∀ y ∈ prior, ∃ z, f y = .ok z) ∧ f x = .error e := by
  induction xs with
  | nil =>
    constructor
    · intro same
      cases same
    · rintro ⟨prior, x, later, split, -⟩
      simp at split
  | cons x xs ih =>
    rw [List.mapM_cons, bind_eq_error]
    constructor
    · rintro (head | ⟨y, head, rest⟩)
      · exact ⟨[], x, xs, rfl, by simp, head⟩
      · obtain tail | ⟨ys, -, same⟩ := bind_eq_error.mp rest
        · obtain ⟨prior, x', later, rfl, passed, failed⟩ := ih.mp tail
          refine ⟨x :: prior, x', later, rfl, ?_, failed⟩
          rintro z (_ | ⟨_, member⟩)
          · exact ⟨y, head⟩
          · exact passed z member
        · cases same
    · rintro ⟨prior, x', later, split, passed, failed⟩
      cases prior with
      | nil =>
        obtain ⟨rfl, -⟩ := List.cons.inj split
        exact .inl failed
      | cons z prior =>
        obtain ⟨rfl, rfl⟩ := List.cons.inj split
        obtain ⟨y, head⟩ := passed x (by simp)
        refine .inr ⟨y, head, bind_eq_error.mpr (.inl (ih.mpr ⟨prior, x', later, rfl, ?_, failed⟩))⟩
        exact fun w member => passed w (by simp [member])

end Results

namespace Numeral

theorem scan_numberSign (rest : List Char) : scan ('#' :: rest) = none := by
  simp [scan, scanWord, scanInfinity, dropWord, scanDigits, dropSign, dropHexMark, scanMantissa, digit?, Mantissa.empty]

end Numeral

/-- No number begins with a number sign. -/
theorem Cx.parse_numberSign (rest : List Char) (z : Cx Float) : Cx.parse (String.ofList ('#' :: rest)) ≠ .ok z := by
  intro found
  obtain ⟨read, -⟩ := Cx.parse_eq_ok.mp found
  rw [String.toList_ofList] at read
  obtain ⟨body, trimmed⟩ := Text.trimChars_cons (c := '#') (by decide) rest
  rw [trimmed] at read
  have front : ∃ body', numeralText ('#' :: body) = '#' :: body' := by
    unfold numeralText
    split
    next last =>
      cases body with
      | nil => cases last
      | cons c body => exact ⟨_, rfl⟩
    next => exact ⟨body, rfl⟩
  obtain ⟨body', front⟩ := front
  rw [front] at read
  have none : Numeral.scanComplex ('#' :: body') = none := by
    simp [Numeral.scanComplex, Numeral.dropParentheses, Numeral.scan_numberSign]
  rw [Numeral.readComplex, none] at read
  cases read

namespace Dense

/-! ## Lines -/

/-- The lines of a text: each ends at a line feed, the last one at the end of the text if there is something left. -/
inductive Lines : List Char → List (List Char) → Prop where
  | none : Lines [] []
  | last {line : List Char} : line ≠ [] → '\n' ∉ line → Lines line [line]
  | next {line rest : List Char} {lines : List (List Char)} :
      '\n' ∉ line → Lines rest lines → Lines (line ++ '\n' :: rest) (line :: lines)

theorem splitLinesFrom_cons {c : Char} (plain : c ≠ '\n') (line rest : List Char) :
    splitLinesFrom line (c :: rest) = splitLinesFrom (c :: line) rest := by
  rw [splitLinesFrom]
  exact plain

theorem lines_splitLinesFrom {line : List Char} (unbroken : '\n' ∉ line) (text : List Char) :
    Lines (line.reverse ++ text) (splitLinesFrom line text) := by
  induction text generalizing line with
  | nil =>
    cases line with
    | nil => exact .none
    | cons c line =>
      rw [List.append_nil]
      exact .last (by simp) fun member => unbroken (List.mem_reverse.mp member)
  | cons c rest ih =>
    by_cases feed : c = '\n'
    · subst feed
      rw [splitLinesFrom]
      exact .next (by simpa using unbroken) (@ih [] (by simp))
    · rw [splitLinesFrom_cons feed]
      have longer := @ih (c :: line) (List.not_mem_cons_of_ne_of_not_mem (Ne.symm feed) unbroken)
      simpa using longer

theorem splitLinesFrom_append {line : List Char} (unbroken : '\n' ∉ line) (before rest : List Char) :
    splitLinesFrom before (line ++ '\n' :: rest) = (before.reverse ++ line) :: splitLinesFrom [] rest := by
  induction line generalizing before with
  | nil => simp [splitLinesFrom]
  | cons c line ih =>
    rw [List.mem_cons, not_or] at unbroken
    rw [List.cons_append, splitLinesFrom_cons (Ne.symm unbroken.1), ih unbroken.2]
    simp

theorem splitLinesFrom_last {line : List Char} (unbroken : '\n' ∉ line) (before : List Char) (some : before.reverse ++ line ≠ []) :
    splitLinesFrom before line = [before.reverse ++ line] := by
  induction line generalizing before with
  | nil =>
    have filled : before.isEmpty = false := by simpa using some
    simp [splitLinesFrom, filled]
  | cons c line ih =>
    rw [List.mem_cons, not_or] at unbroken
    rw [splitLinesFrom_cons (Ne.symm unbroken.1), ih unbroken.2 _ (by simp)]
    simp

theorem lines_iff {text : List Char} {lines : List (List Char)} : Lines text lines ↔ splitLines text = lines := by
  constructor
  · intro split
    induction split with
    | none => rfl
    | last filled unbroken => exact splitLinesFrom_last unbroken [] (by simpa using filled)
    | next unbroken _ ih => rw [splitLines, splitLinesFrom_append unbroken, ← splitLines, ih]; rfl
  · rintro rfl
    exact @lines_splitLinesFrom [] (by simp) text

theorem foldl_utf8Size (line : List Char) (bytes : ℕ) :
    line.foldl (fun bytes c => bytes + c.utf8Size) bytes = bytes + (String.ofList line).utf8ByteSize := by
  induction line generalizing bytes with
  | nil => simp
  | cons c line ih =>
    rw [List.foldl_cons, ih]
    simp [String.utf8ByteSize_ofList]
    omega

theorem byteLength_eq (line : List Char) : byteLength line = (String.ofList line).utf8ByteSize := by
  rw [byteLength, foldl_utf8Size, Nat.zero_add]

/-! ## Entries of a line -/

def separators : List Char := [',', ' ', '\t']

theorem isSeparator_iff {c : Char} : isSeparator c = true ↔ c ∈ separators := by
  simp [isSeparator, separators, or_assoc]

/-- The longest runs of other characters between separators. -/
inductive Runs : List Char → List (List Char) → Prop where
  | none {gap : List Char} : (∀ c ∈ gap, c ∈ separators) → Runs gap []
  | next {gap run rest : List Char} {runs : List (List Char)} :
      (∀ c ∈ gap, c ∈ separators) → run ≠ [] → (∀ c ∈ run, c ∉ separators) → (∀ c ∈ rest.head?, c ∈ separators) →
      Runs rest runs → Runs (gap ++ (run ++ rest)) (run :: runs)

theorem isSeparator_eq_false {c : Char} : isSeparator c = false ↔ c ∉ separators := by
  rw [← isSeparator_iff, Bool.not_eq_true]

theorem fieldsFrom_of_run {run rest : List Char} (solid : ∀ c ∈ run, c ∉ separators) (field : List Char) :
    fieldsFrom field (run ++ rest) = fieldsFrom (run.reverse ++ field) rest := by
  induction run generalizing field with
  | nil => rfl
  | cons c run ih =>
    have plain := isSeparator_eq_false.mpr (solid c (by simp))
    rw [List.cons_append, fieldsFrom, plain, if_neg (by decide), ih fun d member => solid d (by simp [member])]
    simp

theorem fieldsFrom_of_gap {gap : List Char} (empty : ∀ c ∈ gap, c ∈ separators) (rest : List Char) :
    fieldsFrom [] (gap ++ rest) = fieldsFrom [] rest := by
  induction gap with
  | nil => rfl
  | cons c gap ih =>
    have found := isSeparator_iff.mpr (empty c (by simp))
    rw [List.cons_append, fieldsFrom, if_pos found]
    exact ih fun d member => empty d (by simp [member])

/-- A run that has begun ends at the next separator. -/
theorem fieldsFrom_of_ended {field rest : List Char} (begun : field ≠ []) (ended : ∀ c ∈ rest.head?, c ∈ separators) :
    fieldsFrom field rest = field.reverse :: fieldsFrom [] rest := by
  have filled : field.isEmpty = false := by simpa using begun
  cases rest with
  | nil => simp [fieldsFrom, filled]
  | cons c rest =>
    have found := isSeparator_iff.mpr (ended c (by simp))
    simp [fieldsFrom, filled, found]

theorem Runs.separator_cons {c : Char} {line : List Char} {runs : List (List Char)} (separator : c ∈ separators)
    (split : Runs line runs) : Runs (c :: line) runs := by
  have longer {gap : List Char} (empty : ∀ d ∈ gap, d ∈ separators) : ∀ d ∈ c :: gap, d ∈ separators := by
    rintro d (_ | ⟨_, member⟩)
    · exact separator
    · exact empty d member
  cases split with
  | none empty => exact .none (longer empty)
  | next empty begun solid ended rest => exact @Runs.next (c :: _) _ _ _ (longer empty) begun solid ended rest

/-- What is left of a line when its first run has begun: the run goes on to the next separator. -/
theorem runs_fieldsFrom (line : List Char) :
    Runs line (fieldsFrom [] line) ∧
      ∀ field, field ≠ [] → (∀ c ∈ field, c ∉ separators) → ∃ run rest runs, field.reverse ++ line = run ++ rest ∧
        run ≠ [] ∧ (∀ c ∈ run, c ∉ separators) ∧ (∀ c ∈ rest.head?, c ∈ separators) ∧ Runs rest runs ∧
        fieldsFrom field line = run :: runs := by
  induction line with
  | nil =>
    refine ⟨.none (by simp), fun field begun solid => ⟨field.reverse, [], [], rfl, by simpa using begun, by simpa using solid,
      by simp, .none (by simp), ?_⟩⟩
    exact fieldsFrom_of_ended begun (by simp)
  | cons c line ih =>
    obtain ⟨fresh, going⟩ := ih
    by_cases separator : c ∈ separators
    · have skipped : fieldsFrom [] (c :: line) = fieldsFrom [] line :=
        @fieldsFrom_of_gap [c] (by simpa using separator) line
      have whole := fresh.separator_cons separator
      rw [skipped]
      refine ⟨whole, fun field begun solid => ⟨field.reverse, c :: line, _, rfl, by simpa using begun, by simpa using solid,
        by simpa using separator, whole, ?_⟩⟩
      rw [fieldsFrom_of_ended begun (by simpa using separator), skipped]
    · have taken (field : List Char) : fieldsFrom field (c :: line) = fieldsFrom (c :: field) line :=
        @fieldsFrom_of_run [c] _ (by simpa using separator) field
      constructor
      · obtain ⟨run, rest, runs, split, begun, solid, ended, tail, value⟩ := going [c] (by simp) (by simpa using separator)
        rw [taken, value, show c :: line = [] ++ (run ++ rest) from split]
        exact .next (by simp) begun solid ended tail
      · intro field begun solid
        obtain ⟨run, rest, runs, split, found⟩ := going (c :: field) (by simp) (by simpa using ⟨separator, solid⟩)
        refine ⟨run, rest, runs, ?_, by rwa [taken]⟩
        rw [← split]
        simp

theorem runs_iff {line : List Char} {runs : List (List Char)} : Runs line runs ↔ fields line = runs := by
  constructor
  · intro split
    induction split with
    | none empty =>
      have all := fieldsFrom_of_gap empty []
      rw [List.append_nil] at all
      exact all
    | next empty begun solid ended _ ih =>
      rw [fields, fieldsFrom_of_gap empty, fieldsFrom_of_run solid, fieldsFrom_of_ended (by simpa using begun) ended, ← fields, ih]
      simp
  · rintro rfl
    exact (runs_fieldsFrom line).1

/-! ## Rows -/

/-- A line that is passed over: nothing but blanks, or a number sign after them. -/
def Skipped (line : List Char) : Prop := Text.trimChars line = [] ∨ (Text.trimChars line).head? = some '#'

instance : DecidablePred Skipped := fun _ => inferInstanceAs (Decidable (_ ∨ _))

/-- The numbers that a line has, all of its entries. -/
def Row (line : List Char) (row : List (Cx Float)) : Prop :=
  ∃ runs, Runs (Text.trimChars line) runs ∧ List.Forall₂ (fun run z => Cx.parse (String.ofList run) = .ok z) runs row

/-- The first entry of a line that is no number is refused for a reason. -/
def Refused (line : List Char) (fault : Fault Float) : Prop :=
  ∃ earlier run later, Runs (Text.trimChars line) (earlier ++ run :: later) ∧
    (∀ other ∈ earlier, ∃ z, Cx.parse (String.ofList other) = .ok z) ∧ Cx.parse (String.ofList run) = .error fault

theorem trimChars_dropReturn (line : List Char) : Text.trimChars (dropReturn line) = Text.trimChars line := by
  unfold dropReturn
  split
  next last =>
    have split := List.dropLast_append_getLast? _ (beq_iff_eq.mp last)
    conv_rhs => rw [← split]
    rw [Text.trimChars_append_blank (by decide)]
  next => rfl

theorem parseLine_skipped {line : List Char} (skipped : Skipped line) (number : ℕ) : parseLine number line = .ok none := by
  unfold parseLine
  rw [trimChars_dropReturn]
  rcases skipped with empty | sign
  · rw [empty]
  · obtain ⟨rest, split⟩ : ∃ rest, Text.trimChars line = '#' :: rest := by
      cases trimmed : Text.trimChars line with
      | nil => rw [trimmed] at sign; cases sign
      | cons c rest => rw [trimmed] at sign; exact ⟨rest, by rw [Option.some.inj sign]⟩
    rw [split]
    rfl

theorem parseLine_of_runs {line : List Char} {runs : List (List Char)} (content : ¬ Skipped line)
    (split : Runs (Text.trimChars line) runs) (number : ℕ) :
    parseLine number line =
      (Outcome.within (.line number) (runs.mapM fun run => Cx.parse (String.ofList run))).map some := by
  rw [Skipped, not_or] at content
  unfold parseLine
  rw [trimChars_dropReturn]
  split
  next empty => exact absurd empty content.1
  next rest sign => exact absurd (by rw [sign]; rfl) content.2
  next => rw [runs_iff.mp split]

theorem map_eq_ok {ε β γ : Type} {f : β → γ} {outcome : Except ε β} {result : γ} :
    outcome.map f = .ok result ↔ ∃ b, outcome = .ok b ∧ f b = result := by
  cases outcome with
  | error e => simp [Except.map]
  | ok b => simp [Except.map]

theorem map_eq_error {ε β γ : Type} {f : β → γ} {outcome : Except ε β} {e : ε} :
    outcome.map f = .error e ↔ outcome = .error e := by
  cases outcome with
  | error e => simp [Except.map]
  | ok b => simp [Except.map]

theorem parseLine_eq_ok {line : List Char} {number : ℕ} {found : Option (List (Cx Float))} :
    parseLine number line = .ok found ↔
      (Skipped line ∧ found = none) ∨ (¬ Skipped line ∧ ∃ row, Row line row ∧ found = some row) := by
  by_cases skipped : Skipped line
  · rw [parseLine_skipped skipped]
    simpa [skipped] using eq_comm
  · rw [parseLine_of_runs skipped (runs_iff.mpr rfl), map_eq_ok]
    constructor
    · rintro ⟨row, read, rfl⟩
      exact .inr ⟨skipped, row, ⟨_, runs_iff.mpr rfl, mapM_eq_ok.mp (mapError_eq_ok.mp read)⟩, rfl⟩
    · rintro (⟨passed, -⟩ | ⟨-, row, ⟨runs, split, read⟩, rfl⟩)
      · exact absurd passed skipped
      · obtain rfl := runs_iff.mp split
        exact ⟨row, mapError_eq_ok.mpr (mapM_eq_ok.mpr read), rfl⟩

theorem parseLine_eq_error {line : List Char} {number : ℕ} {fault : Fault Float} :
    parseLine number line = .error fault ↔
      ¬ Skipped line ∧ ∃ inner, Refused line inner ∧ fault = .within (.line number) inner := by
  by_cases skipped : Skipped line
  · rw [parseLine_skipped skipped]
    simp [skipped]
  · rw [parseLine_of_runs skipped (runs_iff.mpr rfl), map_eq_error, Outcome.within, mapError_eq_error]
    constructor
    · rintro ⟨inner, read, rfl⟩
      obtain ⟨earlier, run, later, split, accepted, refused⟩ := mapM_eq_error.mp read
      exact ⟨skipped, inner, ⟨earlier, run, later, runs_iff.mpr split, accepted, refused⟩, rfl⟩
    · rintro ⟨-, inner, ⟨earlier, run, later, split, accepted, refused⟩, rfl⟩
      exact ⟨inner, mapM_eq_error.mpr ⟨earlier, run, later, runs_iff.mp split, accepted, refused⟩, rfl⟩

/-! ## All lines -/

/-- No line is longer than a reader takes. -/
def Short (lines : List (List Char)) : Prop := ∀ line ∈ lines, (String.ofList line).utf8ByteSize < 65536

/-- The lines that are not passed over have these rows. -/
def Rows (lines : List (List Char)) (rows : List (List (Cx Float))) : Prop :=
  List.Forall₂ Row (lines.filter fun line => ¬ Skipped line) rows

/-- The first entry of all lines that is no number stands in the line of this number, counted from one. -/
def FirstRefused (lines : List (List Char)) (number : ℕ) (fault : Fault Float) : Prop :=
  ∃ before line after, lines = before ++ line :: after ∧ number = before.length + 1 ∧
    (∀ other ∈ before, Skipped other ∨ ∃ row, Row other row) ∧ ¬ Skipped line ∧ Refused line fault

theorem parseLines_cons {line : List Char} {lines : List (List Char)} (short : Short (line :: lines)) (number : ℕ) :
    parseLines number (line :: lines) = (do
      let row ← parseLine number line
      let rows ← parseLines (number + 1) lines
      return row.toList ++ rows) := by
  have within : ¬ lineLimit ≤ byteLength line := by
    rw [byteLength_eq, not_le]
    exact short line (by simp)
  rw [parseLines, if_neg within]

theorem rows_cons {line : List Char} {lines : List (List Char)} {rows : List (List (Cx Float))} :
    Rows (line :: lines) rows ↔ (Skipped line ∧ Rows lines rows) ∨
      (¬ Skipped line ∧ ∃ row rest, Row line row ∧ Rows lines rest ∧ rows = row :: rest) := by
  by_cases skipped : Skipped line
  · rw [Rows, List.filter_cons_of_neg (by simpa using skipped)]
    simp [skipped, Rows]
  · rw [Rows, List.filter_cons_of_pos (by simpa using skipped), List.forall₂_cons_left_iff]
    simp only [skipped, false_and, not_false_eq_true, true_and, false_or]
    constructor
    · rintro ⟨row, rest, has, later, rfl⟩
      exact ⟨row, rest, has, later, rfl⟩
    · rintro ⟨row, rest, has, later, rfl⟩
      exact ⟨row, rest, has, later, rfl⟩

theorem parseLines_eq_ok {lines : List (List Char)} (short : Short lines) {number : ℕ} {rows : List (List (Cx Float))} :
    parseLines number lines = .ok rows ↔ Rows lines rows := by
  induction lines generalizing number rows with
  | nil =>
    rw [parseLines, Rows, List.filter_nil, List.forall₂_nil_left_iff, Except.ok.injEq]
    exact eq_comm
  | cons line lines ih =>
    have rest : Short lines := fun other member => short other (by simp [member])
    rw [parseLines_cons short, bind_eq_ok, rows_cons]
    constructor
    · rintro ⟨found, read, later⟩
      obtain ⟨rows, read', same⟩ := bind_eq_ok.mp later
      obtain rfl := Except.ok.inj same
      obtain ⟨skipped, rfl⟩ | ⟨content, row, has, rfl⟩ := parseLine_eq_ok.mp read
      · exact .inl ⟨skipped, (ih rest).mp read'⟩
      · exact .inr ⟨content, row, rows, has, (ih rest).mp read', rfl⟩
    · rintro (⟨skipped, later⟩ | ⟨content, row, rows, has, later, rfl⟩)
      · exact ⟨none, parseLine_skipped skipped _, bind_eq_ok.mpr ⟨rows, (ih rest).mpr later, rfl⟩⟩
      · exact ⟨some row, parseLine_eq_ok.mpr (.inr ⟨content, row, has, rfl⟩),
          bind_eq_ok.mpr ⟨rows, (ih rest).mpr later, rfl⟩⟩

theorem firstRefused_nil {number : ℕ} {fault : Fault Float} : ¬ FirstRefused [] number fault := by
  rintro ⟨before, line, after, split, -⟩
  simp at split

theorem firstRefused_cons {line : List Char} {lines : List (List Char)} {number : ℕ} {fault : Fault Float} :
    FirstRefused (line :: lines) number fault ↔ (number = 1 ∧ ¬ Skipped line ∧ Refused line fault) ∨
      ∃ next, number = next + 1 ∧ (Skipped line ∨ ∃ row, Row line row) ∧ FirstRefused lines next fault := by
  constructor
  · rintro ⟨before, other, after, split, rfl, passed, content, refused⟩
    cases before with
    | nil =>
      obtain ⟨rfl, -⟩ := List.cons.inj split
      exact .inl ⟨rfl, content, refused⟩
    | cons first before =>
      obtain ⟨rfl, rfl⟩ := List.cons.inj split
      exact .inr ⟨_, rfl, passed _ (by simp), before, other, after, rfl, rfl,
        fun other member => passed other (by simp [member]), content, refused⟩
  · rintro (⟨rfl, content, refused⟩ | ⟨_, rfl, passed, before, other, after, rfl, rfl, passed', content, refused⟩)
    · exact ⟨[], line, lines, rfl, rfl, by simp, content, refused⟩
    · refine ⟨line :: before, other, after, rfl, rfl, ?_, content, refused⟩
      rintro first (_ | ⟨_, member⟩)
      · exact passed
      · exact passed' first member

/-- Reading fails where the first entry is no number, with the number of its line. -/
theorem parseLines_eq_error {lines : List (List Char)} (short : Short lines) {start : ℕ} {fault : Fault Float} :
    parseLines (start + 1) lines = .error fault ↔
      ∃ number inner, FirstRefused lines number inner ∧ fault = .within (.line (start + number)) inner := by
  induction lines generalizing start with
  | nil =>
    constructor
    · intro same
      cases same
    · rintro ⟨number, inner, refused, -⟩
      exact absurd refused firstRefused_nil
  | cons line lines ih =>
    have rest : Short lines := fun other member => short other (by simp [member])
    rw [parseLines_cons short, bind_eq_error]
    constructor
    · rintro (here | ⟨found, read, later⟩)
      · obtain ⟨content, inner, refused, rfl⟩ := parseLine_eq_error.mp here
        exact ⟨1, inner, firstRefused_cons.mpr (.inl ⟨rfl, content, refused⟩), rfl⟩
      · obtain there | ⟨rows, -, same⟩ := bind_eq_error.mp later
        · obtain ⟨number, inner, refused, rfl⟩ := (ih rest).mp there
          refine ⟨number + 1, inner, firstRefused_cons.mpr (.inr ⟨number, rfl, ?_, refused⟩), ?_⟩
          · obtain ⟨skipped, -⟩ | ⟨-, row, has, -⟩ := parseLine_eq_ok.mp read
            · exact .inl skipped
            · exact .inr ⟨row, has⟩
          · rw [Nat.add_right_comm, Nat.add_assoc]
        · cases same
    · rintro ⟨number, inner, refused, rfl⟩
      obtain ⟨rfl, content, here⟩ | ⟨next, rfl, passed, there⟩ := firstRefused_cons.mp refused
      · exact .inl (parseLine_eq_error.mpr ⟨content, inner, here, rfl⟩)
      · obtain ⟨found, read⟩ : ∃ found, parseLine (start + 1) line = .ok found := by
          by_cases skipped : Skipped line
          · exact ⟨_, parseLine_skipped skipped _⟩
          · obtain ⟨row, has⟩ := passed.resolve_left skipped
            exact ⟨_, parseLine_eq_ok.mpr (.inr ⟨skipped, row, has, rfl⟩)⟩
        refine .inr ⟨found, read, bind_eq_error.mpr (.inl ((ih rest).mpr ⟨next, inner, there, ?_⟩))⟩
        rw [Nat.add_right_comm, Nat.add_assoc]

/-! ## The matrix -/

/-- The matrix with these rows: there is one, and all are of one positive length. -/
def HasRows (m : Dense Float) (rows : List (List (Cx Float))) : Prop :=
  rows ≠ [] ∧ ∃ width, 0 < width ∧ (∀ row ∈ rows, row.length = width) ∧ m = ⟨rows.length, width, rows.flatten.toArray⟩

theorem HasRows.extent_eq {m : Dense Float} {rows : List (List (Cx Float))} (has : HasRows m rows) :
    m.extent = (rows.flatten.length : ℕ) := by
  obtain ⟨-, width, -, even, rfl⟩ := has
  rw [extent, List.length_flatten, List.map_congr_left even, List.map_const', List.sum_replicate]
  simp

/-- A matrix is made of rows of one length whose entries there can be storage for, and has these entries. -/
theorem ofRows_eq_ok {rows : List (List (Cx Float))} (finite : ∀ row ∈ rows, ∀ z ∈ row, z.isFinite = true) {m : Dense Float} :
    ofRows rows = .ok m ↔ HasRows m rows ∧ m.extent ≤ capacity := by
  constructor
  · intro success
    have fits := extent_le_of_ofRows success
    obtain ⟨first, rest, blank, split, zeroed, written⟩ := ofRows_steps success
    obtain ⟨same, even, -⟩ := writeRows_spec written
    obtain ⟨-, positive, height, width, -⟩ := zero_eq_ok zeroed
    rw [extent, same.rows_eq, same.cols_eq, height, width] at fits
    have value := ofRows_eq (by simp [split]) (by omega) even finite (by exact_mod_cast fits)
    obtain rfl := Except.ok.inj (value.symm.trans success)
    exact ⟨⟨by simp [split], _, by omega, even, rfl⟩, by exact_mod_cast fits⟩
  · rintro ⟨⟨filled, width, positive, even, rfl⟩, fits⟩
    exact ofRows_eq filled positive even finite (by simpa [extent] using fits)

theorem Row.finite {line : List Char} {row : List (Cx Float)} (has : Row line row) : ∀ z ∈ row, z.isFinite = true := by
  obtain ⟨runs, -, read⟩ := has
  induction read with
  | nil => simp
  | cons head _ ih =>
    rintro z (_ | ⟨_, member⟩)
    · exact (Cx.parse_eq_ok.mp head).2
    · exact ih z member

theorem Rows.finite {lines : List (List Char)} {rows : List (List (Cx Float))} (has : Rows lines rows) :
    ∀ row ∈ rows, ∀ z ∈ row, z.isFinite = true := by
  unfold Rows at has
  generalize lines.filter _ = content at has
  induction has with
  | nil => simp
  | cons head _ ih =>
    rintro row (_ | ⟨_, member⟩)
    · exact head.finite
    · exact ih row member

/-! ## The size of what is read -/

theorem Runs.length_le {line : List Char} {runs : List (List Char)} (split : Runs line runs) : runs.length ≤ line.length := by
  induction split with
  | none => simp
  | next _ begun _ _ _ ih =>
    have positive := List.length_pos_iff.mpr begun
    simp only [List.length_cons, List.length_append]
    omega

theorem Row.length_le {line : List Char} {row : List (Cx Float)} (has : Row line row) : row.length ≤ line.length := by
  obtain ⟨runs, split, read⟩ := has
  obtain ⟨before, after, whole, -⟩ := Text.trimChars_spec line
  have trimmed := congrArg List.length whole
  simp only [List.length_append] at trimmed
  have entries := split.length_le
  rw [← read.length_eq]
  omega

theorem Rows.length_le {lines : List (List Char)} {rows : List (List (Cx Float))} (has : Rows lines rows) :
    rows.flatten.length ≤ lines.flatten.length := by
  induction lines generalizing rows with
  | nil =>
    rw [Rows, List.filter_nil, List.forall₂_nil_left_iff] at has
    simp [has]
  | cons line lines ih =>
    rw [List.flatten_cons, List.length_append]
    obtain ⟨-, later⟩ | ⟨-, row, rest, first, later, rfl⟩ := rows_cons.mp has
    · exact (ih later).trans (Nat.le_add_left _ _)
    · rw [List.flatten_cons, List.length_append]
      exact Nat.add_le_add first.length_le (ih later)

theorem Lines.length_le {text : List Char} {lines : List (List Char)} (split : Lines text lines) :
    lines.flatten.length ≤ text.length := by
  induction split with
  | none => simp
  | last => simp
  | next _ _ ih =>
    simp only [List.flatten_cons, List.length_append, List.length_cons]
    omega

/-- A text has no more entries than characters. -/
theorem HasRows.extent_le {text : String} {lines : List (List Char)} (split : Lines text.toList lines) {m : Dense Float}
    {rows : List (List (Cx Float))} (read : Rows lines rows) (has : HasRows m rows) : m.extent ≤ text.length := by
  have entries := read.length_le.trans split.length_le
  rw [has.extent_eq]
  exact_mod_cast entries

/-! ## The matrix of a text -/

theorem parse_eq_ok {text : String} {lines : List (List Char)} (split : Lines text.toList lines) (short : Short lines)
    {m : Dense Float} :
    parse text = .ok m ↔ (∃ rows, Rows lines rows ∧ HasRows m rows) ∧ m.extent ≤ capacity := by
  rw [parse, bind_eq_ok, lines_iff.mp split]
  constructor
  · rintro ⟨rows, read, made⟩
    have has := (parseLines_eq_ok short).mp read
    obtain ⟨shaped, fits⟩ := (ofRows_eq_ok has.finite).mp made
    exact ⟨⟨rows, has, shaped⟩, fits⟩
  · rintro ⟨⟨rows, has, shaped⟩, fits⟩
    exact ⟨rows, (parseLines_eq_ok short).mpr has, (ofRows_eq_ok has.finite).mpr ⟨shaped, fits⟩⟩

/-- A fault in a line is the first entry that is no number: the fault of a wrong shape names no line. -/
theorem parse_eq_error {text : String} {lines : List (List Char)} (split : Lines text.toList lines) (short : Short lines)
    {number : ℕ} {fault : Fault Float} :
    parse text = .error (.within (.line number) fault) ↔ FirstRefused lines number fault := by
  rw [parse, bind_eq_error, lines_iff.mp split, @parseLines_eq_error _ short 0]
  constructor
  · rintro (⟨_, _, refused, same⟩ | ⟨rows, -, made⟩)
    · rw [Nat.zero_add] at same
      injection same with place inner
      injection place with number
      rwa [number, inner]
    · obtain ⟨inner, -, same⟩ := mapError_eq_error.mp made
      injection same with place
      cases place
  · intro refused
    exact .inl ⟨number, fault, refused, by rw [Nat.zero_add]⟩

/-! ## Ways to write a matrix -/

/-- Another way to write the same rows: lines that are passed over put in, carriage returns put at the ends of lines,
and other separators put between the entries of a line. -/
inductive Rewritten : List (List Char) → List (List Char) → Prop where
  | none : Rewritten [] []
  | kept (line : List Char) {lines lines' : List (List Char)} : Rewritten lines lines' → Rewritten (line :: lines) (line :: lines')
  | inserted {line : List Char} {lines lines' : List (List Char)} : Skipped line → Rewritten lines lines' →
      Rewritten lines (line :: lines')
  | returned (line : List Char) {lines lines' : List (List Char)} : Rewritten lines lines' →
      Rewritten (line :: lines) ((line ++ ['\r']) :: lines')
  | separated {line line' : List Char} {runs : List (List Char)} {lines lines' : List (List Char)} : ¬ Skipped line →
      Runs (Text.trimChars line) runs → Runs (Text.trimChars line') runs → Rewritten lines lines' →
      Rewritten (line :: lines) (line' :: lines')

/-- A line whose first entry is a number is not passed over. -/
theorem not_skipped_of_runs {line run : List Char} {runs : List (List Char)} (split : Runs (Text.trimChars line) (run :: runs))
    (number : run.head? ≠ some '#') : ¬ Skipped line := by
  generalize trimmed : Text.trimChars line = t at split
  rw [Skipped, trimmed]
  cases split with
  | @next gap _ rest _ empty begun _ _ _ =>
    rintro (none | sign)
    · simp [begun] at none
    · cases gap with
      | nil =>
        cases run with
        | nil => exact begun rfl
        | cons c run => exact number sign
      | cons c gap =>
        have member := empty c (by simp)
        rw [show c = '#' from Option.some.inj sign] at member
        exact absurd member (by decide)

/-- A line of the rows can be written with other separators and is not passed over then. -/
theorem Row.not_skipped {line line' : List Char} {row : List (Cx Float)} {runs : List (List Char)} (has : Row line row)
    (filled : row ≠ []) (split : Runs (Text.trimChars line) runs) (split' : Runs (Text.trimChars line') runs) :
    ¬ Skipped line' := by
  obtain ⟨runs', same, read⟩ := has
  obtain rfl : runs' = runs := (runs_iff.mp same).symm.trans (runs_iff.mp split)
  cases read with
  | nil => exact absurd rfl filled
  | @cons run z _ _ head _ =>
    refine not_skipped_of_runs split' fun sign => ?_
    cases run with
    | nil => cases sign
    | cons c run =>
      obtain rfl := Option.some.inj sign
      exact Cx.parse_numberSign run z head

theorem Rewritten.rows {lines lines' : List (List Char)} (rewritten : Rewritten lines lines')
    {rows : List (List (Cx Float))} (has : Rows lines rows) (filled : ∀ row ∈ rows, row ≠ []) : Rows lines' rows := by
  induction rewritten generalizing rows with
  | none => exact has
  | kept line _ ih =>
    obtain ⟨skipped, later⟩ | ⟨content, row, rest, first, later, rfl⟩ := rows_cons.mp has
    · exact rows_cons.mpr (.inl ⟨skipped, ih later filled⟩)
    · exact rows_cons.mpr (.inr ⟨content, row, rest, first, ih later fun other member => filled other (by simp [member]), rfl⟩)
  | inserted skipped _ ih => exact rows_cons.mpr (.inl ⟨skipped, ih has filled⟩)
  | returned line _ ih =>
    have same := Text.trimChars_append_blank (c := '\r') (by decide) line
    obtain ⟨skipped, later⟩ | ⟨content, row, rest, first, later, rfl⟩ := rows_cons.mp has
    · exact rows_cons.mpr (.inl ⟨by rwa [Skipped, same], ih later filled⟩)
    · refine rows_cons.mpr (.inr ⟨by rwa [Skipped, same], row, rest, by rwa [Row, same], ih later fun other member => ?_, rfl⟩)
      exact filled other (by simp [member])
  | separated content split split' _ ih =>
    obtain ⟨skipped, -⟩ | ⟨-, row, rest, first, later, rfl⟩ := rows_cons.mp has
    · exact absurd skipped content
    · have content' := first.not_skipped (filled row (by simp)) split split'
      obtain ⟨runs', same, read⟩ := first
      obtain rfl := (runs_iff.mp same).symm.trans (runs_iff.mp split)
      exact rows_cons.mpr (.inr ⟨content', row, rest, ⟨_, split', read⟩,
        ih later fun other member => filled other (by simp [member]), rfl⟩)

theorem parse_of_rewritten {text text' : String} {lines lines' : List (List Char)} (split : Lines text.toList lines)
    (short : Short lines) (split' : Lines text'.toList lines') (short' : Short lines') (rewritten : Rewritten lines lines')
    {m : Dense Float} (read : parse text = .ok m) : parse text' = .ok m := by
  obtain ⟨⟨rows, has, made⟩, fits⟩ := (parse_eq_ok split short).mp read
  obtain ⟨-, width, positive, even, -⟩ := id made
  refine (parse_eq_ok split' short').mpr ⟨⟨rows, rewritten.rows has fun row member => ?_, made⟩, fits⟩
  rw [← List.length_pos_iff, even row member]
  exact positive

/-- What is read from a text with short lines. A matrix is read where the lines that are not passed over have entries
that are all numbers, and the same positive count of them; it has these numbers. There must be storage for it, which is
never in question for a text that is itself no longer than storage can be. A fault in a line is the first entry that is
no number, with the number of its line among all lines. Other ways to write the rows give the same matrix. -/
theorem parse_lines {text : String} {lines : List (List Char)} (split : Lines text.toList lines) (short : Short lines) :
    (∀ m, parse text = .ok m ↔ (∃ rows, Rows lines rows ∧ HasRows m rows) ∧ m.rows * m.cols ≤ capacity) ∧
      (text.length ≤ capacity → ∀ m, parse text = .ok m ↔ ∃ rows, Rows lines rows ∧ HasRows m rows) ∧
      (∀ number fault, parse text = .error (.within (.line number) fault) ↔ FirstRefused lines number fault) ∧
      ∀ text' lines', Lines text'.toList lines' → Short lines' → Rewritten lines lines' →
        ∀ m, parse text = .ok m → parse text' = .ok m := by
  refine ⟨fun _ => parse_eq_ok split short, fun fits m => ?_, fun _ _ => parse_eq_error split short,
    fun _ _ split' short' rewritten _ => parse_of_rewritten split short split' short' rewritten⟩
  rw [parse_eq_ok split short]
  constructor
  · exact And.left
  · rintro ⟨rows, read, has⟩
    exact ⟨⟨rows, read, has⟩, (has.extent_le split read).trans fits⟩

/-- Two rows, and the same with a comment, a carriage return, an empty line and other separators. -/
theorem parse_lines_commented :
    parse "1,2i\n3,-4" = .ok ⟨2, 2, #[⟨1, 0⟩, ⟨0, 2⟩, ⟨3, 0⟩, ⟨-4, 0⟩]⟩ ∧
      parse "# rows, 2\n1,2i\r\n\n\t3 ,,-4 ,\n" = .ok ⟨2, 2, #[⟨1, 0⟩, ⟨0, 2⟩, ⟨3, 0⟩, ⟨-4, 0⟩]⟩ := by
  have read : parse "1,2i\n3,-4" = .ok ⟨2, 2, #[⟨1, 0⟩, ⟨0, 2⟩, ⟨3, 0⟩, ⟨-4, 0⟩]⟩ := rfl
  have split : Lines "1,2i\n3,-4".toList ["1,2i".toList, "3,-4".toList] := lines_iff.mpr (by decide)
  have split' : Lines "# rows, 2\n1,2i\r\n\n\t3 ,,-4 ,\n".toList
      ["# rows, 2".toList, "1,2i\r".toList, [], "\t3 ,,-4 ,".toList] := lines_iff.mpr (by decide)
  have rewritten : Rewritten ["1,2i".toList, "3,-4".toList]
      ["# rows, 2".toList, "1,2i\r".toList, [], "\t3 ,,-4 ,".toList] := by
    refine .inserted (by decide) (.returned "1,2i".toList (.inserted (by decide) ?_))
    have runs : Runs (Text.trimChars "3,-4".toList) ["3".toList, "-4".toList] := runs_iff.mpr (by decide)
    exact .separated (by decide) runs (runs_iff.mpr (by decide)) .none
  have found := parse_lines split (by unfold Short; decide)
  exact ⟨read, found.2.2.2 _ _ split' (by unfold Short; decide) rewritten _ read⟩

end Dense

end Entangle
