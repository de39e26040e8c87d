import Mathlib
import Entangle.Matrix.Dense

/-!
# Storage behind checked access

A matrix checks a position against its shape and finds the entry in its storage, and the two agree only while the shape
has no more entries than there are machine integers from zero on. Then the storage is as long as the product of the
dimensions, no access that passes the check leaves it, and a write changes one entry. A larger shape can be allocated
all the same, where the product comes out small after its reduction, and some position inside it has no place.
-/

namespace Entangle

/-- One more than the largest machine integer. -/
def wordLimit : Int := 0x8000000000000000

theorem word_of_nonneg {n : Int} (nonneg : 0 ≤ n) (below : n < wordLimit) : word n = n := by
  simp only [word, Int.bmod, UInt64.size, wordLimit] at *
  split <;> omega

theorem word_lt (n : Int) : word n < wordLimit := by
  simp only [word, Int.bmod, UInt64.size, wordLimit]
  split <;> omega

theorem word_wordLimit : word wordLimit < 0 := by decide

namespace Dense

variable {α : Type} {m m' : Dense α} {i j k l : Int} {z : Cx α}

/-- The number of entries that a shape asks for. -/
def extent (m : Dense α) : Int := m.rows * m.cols

/-- The dimensions are positive, and the storage has an entry for each position if machine integers can tell them
apart. -/
structure Covers (m : Dense α) : Prop where
  rows_pos : 0 < m.rows
  cols_pos : 0 < m.cols
  size_eq : m.extent ≤ wordLimit → (m.data.size : Int) = m.extent

/-- Equal dimensions and storage of equal length. -/
structure SameShape (m m' : Dense α) : Prop where
  rows_eq : m'.rows = m.rows
  cols_eq : m'.cols = m.cols
  size_eq : m'.data.size = m.data.size

/-- The position is found in the storage. -/
def Placed (m : Dense α) (i j : Int) : Prop := 0 ≤ m.offset i j ∧ m.offset i j < m.data.size

namespace SameShape

theorem refl (m : Dense α) : m.SameShape m := ⟨rfl, rfl, rfl⟩

theorem trans {m'' : Dense α} (first : m.SameShape m') (second : m'.SameShape m'') : m.SameShape m'' :=
  ⟨second.rows_eq.trans first.rows_eq, second.cols_eq.trans first.cols_eq, second.size_eq.trans first.size_eq⟩

theorem covers (same : m.SameShape m') (covers : m.Covers) : m'.Covers := by
  refine ⟨same.rows_eq ▸ covers.rows_pos, same.cols_eq ▸ covers.cols_pos, ?_⟩
  rw [extent, same.rows_eq, same.cols_eq, same.size_eq]
  exact covers.size_eq

theorem placed_iff (same : m.SameShape m') : m'.Placed i j ↔ m.Placed i j := by
  rw [Placed, Placed, offset, offset, same.cols_eq, same.size_eq]

end SameShape

/-! ## Positions -/

theorem inRange_iff : m.inRange i j = true ↔ (0 ≤ i ∧ i < m.rows) ∧ 0 ≤ j ∧ j < m.cols := by
  simp [inRange, and_assoc]

/-- A position of the shape lies before the end of its row-major order. -/
theorem place_bounds (inside : m.inRange i j = true) : 0 ≤ i * m.cols + j ∧ i * m.cols + j < m.extent := by
  obtain ⟨⟨low, high⟩, left, right⟩ := inRange_iff.mp inside
  have row : 0 ≤ i * m.cols := mul_nonneg low (by omega)
  have next : (i + 1) * m.cols ≤ m.rows * m.cols := mul_le_mul_of_nonneg_right (by omega) (by omega)
  rw [add_mul, one_mul] at next
  rw [extent]
  omega

/-- Each place before the end belongs to a position. -/
theorem exists_position (positive : 0 < m.cols) {n : Int} (nonneg : 0 ≤ n) (below : n < m.extent) :
    ∃ i j, m.inRange i j = true ∧ i * m.cols + j = n := by
  refine ⟨n / m.cols, n % m.cols, inRange_iff.mpr ⟨⟨?_, ?_⟩, ?_, ?_⟩, Int.ediv_mul_add_emod n m.cols⟩
  · exact Int.ediv_nonneg nonneg positive.le
  · exact Int.ediv_lt_of_lt_mul positive below
  · exact Int.emod_nonneg n positive.ne'
  · exact Int.emod_lt_of_pos n positive

/-- Different positions have different places. -/
theorem place_injective (first : m.inRange i j = true) (second : m.inRange k l = true)
    (same : i * m.cols + j = k * m.cols + l) : i = k ∧ j = l := by
  obtain ⟨-, left, right⟩ := inRange_iff.mp first
  obtain ⟨-, left', right'⟩ := inRange_iff.mp second
  have column : j = l := by
    have reduced := congrArg (· % m.cols) same
    simpa [Int.emod_eq_of_lt left right, Int.emod_eq_of_lt left' right'] using reduced
  rw [column, add_left_inj] at same
  exact ⟨mul_right_cancel₀ (by omega) same, column⟩

theorem read_outside (outside : m.inRange i j = false) :
    m.read i j = .error (Cause.within (.entry "At" i j) .indexOutOfRange) := by
  rw [read, outside]
  rfl

theorem offset_eq (inside : m.inRange i j = true) (fits : m.extent ≤ wordLimit) :
    m.offset i j = i * m.cols + j := by
  obtain ⟨nonneg, below⟩ := place_bounds inside
  exact word_of_nonneg nonneg (by omega)

/-! ## One access -/

section Access

/-- A position of a covered shape has an entry. -/
theorem Covers.read_eq (covers : m.Covers) (fits : m.extent ≤ wordLimit) (inside : m.inRange i j = true) :
    ∃ stored : (i * m.cols + j).toNat < m.data.size, m.read i j = .ok m.data[(i * m.cols + j).toNat] := by
  obtain ⟨nonneg, below⟩ := place_bounds inside
  have size := covers.size_eq fits
  have stored : (i * m.cols + j).toNat < m.data.size := by omega
  refine ⟨stored, ?_⟩
  rw [read, if_pos inside]
  dsimp only
  rw [offset_eq inside fits, if_neg (by omega), Array.getElem?_eq_getElem stored]

/-- Nothing is refused inside the shape. -/
theorem Covers.read_eq_error (covers : m.Covers) (fits : m.extent ≤ wordLimit) {fault : Fault α} :
    m.read i j = .error fault ↔
      m.inRange i j = false ∧ fault = Cause.within (.entry "At" i j) .indexOutOfRange := by
  cases inside : m.inRange i j with
  | false =>
    rw [read_outside inside]
    simpa using eq_comm
  | true =>
    obtain ⟨_, found⟩ := covers.read_eq fits inside
    rw [found]
    simp

/-- Some place of a shape that is too large for machine integers comes out negative. -/
theorem Covers.exists_negative (covers : m.Covers) (large : wordLimit < m.extent) :
    ∃ i j, m.inRange i j = true ∧ m.offset i j < 0 := by
  obtain ⟨i, j, inside, place⟩ := exists_position covers.cols_pos (by decide : 0 ≤ wordLimit) large
  refine ⟨i, j, inside, ?_⟩
  rw [offset, place]
  exact word_wordLimit

variable [Scalar α]

/-- A finite number is written at a position of a covered shape. -/
theorem Covers.write_eq (covers : m.Covers) (fits : m.extent ≤ wordLimit) (inside : m.inRange i j = true)
    (finite : z.isFinite = true) :
    m.write i j z = .ok { m with data := m.data.setIfInBounds (i * m.cols + j).toNat z } := by
  obtain ⟨nonneg, below⟩ := place_bounds inside
  have size := covers.size_eq fits
  rw [write, inside, finite]
  dsimp only
  rw [offset_eq inside fits, if_neg (by decide), if_neg (by decide), if_pos (by omega)]

/-- What a write that succeeds has checked, and what it leaves. -/
theorem write_eq_ok (written : m.write i j z = .ok m') :
    m.inRange i j = true ∧ z.isFinite = true ∧ m' = { m with data := m.data.setIfInBounds (m.offset i j).toNat z } := by
  unfold write at written
  split at written
  · cases written
  split at written
  · cases written
  dsimp only at written
  split at written
  · rename_i inside finite _
    simp only [Bool.not_eq_true', Bool.not_eq_false] at inside finite
    exact ⟨inside, finite, (Except.ok.inj written).symm⟩
  · cases written

/-- A write is refused outside the shape, and of a number that is not finite. -/
theorem Covers.write_eq_error (covers : m.Covers) (fits : m.extent ≤ wordLimit) {fault : Fault α} :
    m.write i j z = .error fault ↔
      (m.inRange i j = false ∧ fault = Cause.within (.entry "Set" i j) .indexOutOfRange) ∨
        (m.inRange i j = true ∧ z.isFinite = false ∧ fault = Cause.within (.entry "Set" i j) .nonFiniteEntry) := by
  cases inside : m.inRange i j with
  | false =>
    have refused : m.write i j z = .error (Cause.within (.entry "Set" i j) .indexOutOfRange) := by
      rw [Dense.write, inside]
      rfl
    rw [refused]
    simpa using eq_comm
  | true =>
    cases finite : z.isFinite with
    | false =>
      have refused : m.write i j z = .error (Cause.within (.entry "Set" i j) .nonFiniteEntry) := by
        rw [Dense.write, inside, finite]
        rfl
      rw [refused]
      simpa using eq_comm
    | true =>
      rw [covers.write_eq fits inside finite]
      constructor
      · intro same
        cases same
      · rintro (⟨outside, -⟩ | ⟨-, infinite, -⟩)
        · cases outside
        · cases infinite

theorem write_sameShape (written : m.write i j z = .ok m') : m.SameShape m' := by
  obtain ⟨-, -, rfl⟩ := write_eq_ok written
  exact ⟨rfl, rfl, Array.size_setIfInBounds⟩

/-- Where a write succeeds, the position has a place. -/
theorem placed_of_write (written : m.write i j z = .ok m') : m.Placed i j := by
  unfold Dense.write at written
  split at written
  · cases written
  split at written
  · cases written
  dsimp only at written
  split at written
  · assumption
  · cases written

theorem Covers.write (covers : m.Covers) (written : m.write i j z = .ok m') : m'.Covers :=
  (write_sameShape written).covers covers

/-- A write changes the entry at its position and no other. -/
theorem Covers.read_write (covers : m.Covers) (fits : m.extent ≤ wordLimit) (written : m.write i j z = .ok m') :
    m'.read i j = .ok z ∧ ∀ k l, (k ≠ i ∨ l ≠ j) → m'.read k l = m.read k l := by
  have covers' := covers.write written
  obtain ⟨inside, -, rfl⟩ := write_eq_ok written
  set m' : Dense α := { m with data := m.data.setIfInBounds (m.offset i j).toNat z } with own
  obtain ⟨nonneg, -⟩ := place_bounds inside
  constructor
  · obtain ⟨stored, value⟩ := covers'.read_eq fits (i := i) (j := j) inside
    rw [value]
    simp [own, offset_eq inside fits]
  · intro k l apart
    cases other : m.inRange k l with
    | false => rw [read_outside other, read_outside (m := m') other]
    | true =>
      obtain ⟨stored, value⟩ := covers.read_eq fits other
      obtain ⟨stored', value'⟩ := covers'.read_eq fits (i := k) (j := l) other
      obtain ⟨nonneg', -⟩ := place_bounds other
      have places : (i * m.cols + j).toNat ≠ (k * m.cols + l).toNat := by
        intro same
        obtain ⟨rfl, rfl⟩ := place_injective inside other (by omega)
        simp at apart
      rw [value, value', Except.ok.injEq]
      simp only [own, offset_eq inside fits]
      exact Array.getElem_setIfInBounds_ne stored places

/-- A place that machine integers cannot tell from an earlier one is not in the storage. -/
theorem exists_unplaced (covers : m.Covers) (large : wordLimit < m.extent) :
    ∃ i j, m.inRange i j = true ∧ m.read i j = .error .storage ∧
      ∀ z : Cx α, z.isFinite = true → m.write i j z = .error .storage := by
  obtain ⟨i, j, inside, wrapped⟩ := covers.exists_negative large
  refine ⟨i, j, inside, ?_, fun z finite => ?_⟩
  · rw [read, if_pos inside]
    exact if_pos wrapped
  · rw [Dense.write, inside, finite]
    have outside : ¬ (0 ≤ m.offset i j ∧ m.offset i j < m.data.size) := by omega
    exact if_neg outside

end Access

/-! ## Runs -/

section Runs

variable [Scalar α]

/-- The matrices that a program can hold: made by a constructor, copied, and changed entry by entry. -/
inductive Built : Dense α → Prop where
  | zero {rows cols : Int} {m : Dense α} : Dense.zero rows cols = .ok m → Built m
  | ofRows {rows : List (List (Cx α))} {m : Dense α} : Dense.ofRows rows = .ok m → Built m
  | ofMat2 (a : Mat2 α) : Built (.ofMat2 a)
  | ofMat4 (a : Mat4 α) : Built (.ofMat4 a)
  | copy {m : Dense α} : Built m → Built m.copy
  | write {m m' : Dense α} {i j : Int} {z : Cx α} : Built m → m.write i j z = .ok m' → Built m'

/-- What is allocated has the length of the reduced product. -/
theorem zero_eq_ok {rows cols : Int} (made : Dense.zero rows cols = .ok m) :
    0 < rows ∧ 0 < cols ∧ m.rows = rows ∧ m.cols = cols ∧ (m.data.size : Int) = word (rows * cols) ∧
      (m.data.size : Int) ≤ capacity := by
  unfold Dense.zero at made
  split at made
  · cases made
  dsimp only at made
  split at made
  · cases made
  · rename_i positive bounded
    obtain rfl := Except.ok.inj made
    rw [not_or, not_le, not_le] at positive
    rw [not_or, not_lt] at bounded
    refine ⟨positive.1, positive.2, rfl, rfl, ?_⟩
    simp only [Array.size_replicate]
    omega

/-- Storage that can be asked for is allocated. -/
theorem zero_eq {rows cols : ℕ} (filled : 0 < rows ∧ 0 < cols) (fits : ((rows * cols : ℕ) : Int) ≤ capacity) :
    Dense.zero (α := α) rows cols = .ok ⟨rows, cols, Array.replicate (rows * cols) 0⟩ := by
  have below : capacity < wordLimit := by decide
  have asked : word ((rows : Int) * cols) = (rows * cols : ℕ) := by
    rw [← Nat.cast_mul]
    exact word_of_nonneg (Int.natCast_nonneg _) (by omega)
  rw [Dense.zero, if_neg (by omega)]
  dsimp only
  rw [asked, if_neg (by omega), Int.toNat_natCast]

theorem covers_zero {rows cols : Int} (made : Dense.zero rows cols = .ok m) : m.Covers := by
  obtain ⟨rows_pos, cols_pos, rfl, rfl, size, -⟩ := zero_eq_ok made
  refine ⟨rows_pos, cols_pos, fun fits => ?_⟩
  have nonneg : 0 ≤ m.rows * m.cols := mul_nonneg rows_pos.le cols_pos.le
  rw [extent] at fits ⊢
  rcases fits.lt_or_eq with below | limit
  · rw [size, word_of_nonneg nonneg below]
  · have negative := word_wordLimit
    rw [← limit] at negative
    omega

/-- Every entry of a row that is written has found its place. -/
theorem writeRow_spec {r c : ℕ} {row : List (Cx α)} (written : writeRow r c row m = .ok m') :
    m.SameShape m' ∧ ∀ k < row.length, m.Placed r (c + k : ℕ) := by
  induction row generalizing c m with
  | nil =>
    obtain rfl := Except.ok.inj written
    exact ⟨.refl m, by simp⟩
  | cons z row ih =>
    obtain ⟨next, first, later⟩ := bind_eq_ok.mp written
    have kept := write_sameShape first
    obtain ⟨same, placed⟩ := ih later
    refine ⟨kept.trans same, fun k below => ?_⟩
    cases k with
    | zero => exact placed_of_write first
    | succ k =>
      have there := kept.placed_iff.mp (placed k (by simpa using below))
      rwa [Nat.succ_add_eq_add_succ] at there

/-- Rows that are written are all of one length, and every entry has found its place. -/
theorem writeRows_spec {cols r : ℕ} {rows : List (List (Cx α))} (written : writeRows cols r rows m = .ok m') :
    m.SameShape m' ∧ (∀ row ∈ rows, row.length = cols) ∧ ∀ k < rows.length, ∀ c < cols, m.Placed (r + k : ℕ) c := by
  induction rows generalizing r m with
  | nil =>
    obtain rfl := Except.ok.inj written
    exact ⟨.refl m, by simp, by simp⟩
  | cons row rows ih =>
    rw [writeRows] at written
    split at written
    · cases written
    · rename_i even
      rw [not_not] at even
      obtain ⟨next, first, later⟩ := bind_eq_ok.mp written
      obtain ⟨kept, here⟩ := writeRow_spec first
      obtain ⟨same, lengths, there⟩ := ih later
      refine ⟨kept.trans same, ?_, fun k below c inside => ?_⟩
      · rintro other (_ | ⟨_, member⟩)
        · exact even
        · exact lengths other member
      · cases k with
        | zero => simpa using here c (by rwa [even])
        | succ k =>
          have placed := kept.placed_iff.mp (there k (by simpa using below) c inside)
          rwa [Nat.succ_add_eq_add_succ] at placed

/-- What succeeds with rows: storage for them, then their entries one by one. -/
theorem ofRows_steps {rows : List (List (Cx α))} (made : Dense.ofRows rows = .ok m) :
    ∃ first rest blank, rows = first :: rest ∧ Dense.zero (rows.length : ℕ) (first.length : ℕ) = .ok blank ∧
      writeRows first.length 0 rows blank = .ok m := by
  have steps := Outcome.step_eq_ok.mp made
  cases rows with
  | nil => cases steps
  | cons first rest =>
    obtain ⟨blank, made, written⟩ := bind_eq_ok.mp steps
    exact ⟨first, rest, blank, rfl, made, written⟩

/-- A matrix is made of rows only if there can be storage for all of their entries. -/
theorem extent_le_of_ofRows {rows : List (List (Cx α))} (made : Dense.ofRows rows = .ok m) : m.extent ≤ capacity := by
  obtain ⟨first, rest, blank, rfl, zeroed, written⟩ := ofRows_steps made
  obtain ⟨same, -, placed⟩ := writeRows_spec written
  have covers := covers_zero zeroed
  obtain ⟨-, -, height, width, -, asked⟩ := zero_eq_ok zeroed
  have fits : blank.extent ≤ wordLimit := by
    by_contra large
    obtain ⟨i, j, inside, negative⟩ := covers.exists_negative (not_le.mp large)
    obtain ⟨⟨low, high⟩, left, right⟩ := inRange_iff.mp inside
    lift i to ℕ using low
    lift j to ℕ using left
    have there := placed i (by omega) j (by omega)
    rw [Nat.zero_add] at there
    exact absurd there.1 (not_le.mpr negative)
  rw [extent, same.rows_eq, same.cols_eq]
  exact (covers.size_eq fits).symm.le.trans asked

theorem covers_ofRows {rows : List (List (Cx α))} (made : Dense.ofRows rows = .ok m) : m.Covers := by
  obtain ⟨first, rest, blank, -, made, written⟩ := ofRows_steps made
  exact (writeRows_spec written).1.covers (covers_zero made)

omit [Scalar α] in
theorem covers_square {n : ℕ} (a : Square n (Cx α)) (positive : 0 < n) :
    (⟨n, n, a.toRows.flatten.toArray⟩ : Dense α).Covers := by
  refine ⟨by simpa using positive, by simpa using positive, fun _ => ?_⟩
  have even : ∀ row ∈ a.toRows, row.length = n := by
    intro row member
    obtain ⟨stored, -, rfl⟩ := List.mem_map.mp member
    simp
  have count : a.toRows.length = n := by simp [Square.toRows]
  rw [extent, List.size_toArray, List.length_flatten, List.map_congr_left even]
  simp [count]

/-- Every step of a run keeps the storage as long as the shape asks. -/
theorem Built.covers (built : Built m) : m.Covers := by
  induction built with
  | zero made => exact covers_zero made
  | ofRows made => exact covers_ofRows made
  | ofMat2 a => exact covers_square a (by decide)
  | ofMat4 a => exact covers_square a (by decide)
  | copy _ covers => exact ⟨covers.rows_pos, covers.cols_pos, fun fits => by simpa [Dense.copy] using covers.size_eq fits⟩
  | write _ written covers => exact covers.write written

/-- Storage is allocated for every position where the product of the dimensions is a machine integer, and for no larger
shape. -/
theorem size_zero_iff {rows cols : Int} (made : Dense.zero rows cols = .ok m) :
    (m.data.size : Int) = rows * cols ↔ rows * cols < wordLimit := by
  obtain ⟨rows_pos, cols_pos, -, -, size, -⟩ := zero_eq_ok made
  rw [size]
  constructor
  · intro exactly
    rw [← exactly]
    exact word_lt _
  · exact word_of_nonneg (mul_nonneg rows_pos.le cols_pos.le)

/-- However a matrix was made and changed: if its positions are no more than the machine integers from zero on, the
storage has one entry for each, access fails for the stated reasons only, and a write changes the entry that it names.
If they are more, some position passes the check and has no entry. -/
theorem storage_of_built :
    (∀ {rows cols : Int} {m : Dense α}, Dense.zero rows cols = .ok m →
      ((m.data.size : Int) = rows * cols ↔ rows * cols < wordLimit)) ∧
    (∀ {m : Dense α}, Built m → m.rows * m.cols ≤ wordLimit →
      (m.data.size : Int) = m.rows * m.cols ∧
      (∀ i j fault, m.read i j = .error fault ↔
        m.inRange i j = false ∧ fault = Cause.within (.entry "At" i j) .indexOutOfRange) ∧
      (∀ i j z fault, m.write i j z = .error fault ↔
        (m.inRange i j = false ∧ fault = Cause.within (.entry "Set" i j) .indexOutOfRange) ∨
          (m.inRange i j = true ∧ z.isFinite = false ∧ fault = Cause.within (.entry "Set" i j) .nonFiniteEntry)) ∧
      ∀ i j z m', m.write i j z = .ok m' → m'.rows = m.rows ∧ m'.cols = m.cols ∧ m'.read i j = .ok z ∧
        ∀ k l, (k ≠ i ∨ l ≠ j) → m'.read k l = m.read k l) ∧
    ∀ {m : Dense α}, Built m → wordLimit < m.rows * m.cols →
      ∃ i j, m.inRange i j = true ∧ m.read i j = .error .storage ∧
        ∀ z, z.isFinite = true → m.write i j z = .error .storage := by
  refine ⟨size_zero_iff, ?_, ?_⟩
  · intro m built fits
    have covers := built.covers
    refine ⟨covers.size_eq fits, fun i j fault => covers.read_eq_error fits,
      fun i j z fault => covers.write_eq_error fits, ?_⟩
    intro i j z m' written
    obtain ⟨-, -, same⟩ := write_eq_ok written
    exact ⟨by rw [same], by rw [same], covers.read_write fits written⟩
  · intro m built large
    exact exists_unplaced built.covers large

end Runs

/-- Two rows of three, changed in the last place and copied. -/
theorem storage_of_built_copied :
    ∃ m m' : Dense Float, Dense.zero 2 3 = .ok m ∧ m.write 1 2 ⟨3, -4⟩ = .ok m' ∧ Built m'.copy ∧
      m'.copy.rows * m'.copy.cols ≤ wordLimit ∧ m'.copy.data.size = 6 ∧ m'.copy.read 1 2 = .ok ⟨3, -4⟩ ∧
      m'.copy.read 2 0 = .error (Cause.within (.entry "At" 2 0) .indexOutOfRange) ∧
      m'.copy.write 0 (-1) 1 = .error (Cause.within (.entry "Set" 0 (-1)) .indexOutOfRange) := by
  have made : Dense.zero 2 3 = .ok (⟨2, 3, Array.replicate 6 0⟩ : Dense Float) := rfl
  have written : (⟨2, 3, Array.replicate 6 0⟩ : Dense Float).write 1 2 ⟨3, -4⟩ =
      .ok ⟨2, 3, (Array.replicate 6 0).setIfInBounds 5 ⟨3, -4⟩⟩ := rfl
  have built := Built.copy (Built.write (Built.zero made) written)
  obtain ⟨size, reads, writes, -⟩ := storage_of_built.2.1 built (by decide)
  exact ⟨_, _, made, written, built, by decide, Int.ofNat.inj size, rfl, (reads 2 0 _).mpr ⟨rfl, rfl⟩,
    (writes 0 (-1) 1 _).mpr (.inl ⟨rfl, rfl⟩)⟩

/-- The product of these dimensions is two after its reduction: a position of the first row has no entry. -/
theorem storage_wraps :
    ∃ m : Dense Float, Dense.zero 3 6148914691236517206 = .ok m ∧ m.data.size = 2 ∧ m.inRange 0 2 = true ∧
      m.read 0 2 = .error .storage ∧ m.write 0 2 1 = .error .storage :=
  ⟨⟨3, 6148914691236517206, Array.replicate 2 0⟩, rfl, rfl, by decide, rfl, rfl⟩

/-! ## Rows that are stored -/

section Filling

variable [Scalar α] {rows cols r : ℕ}

/-- Storage that is full up to a position takes the next number there. -/
theorem write_next (done later : List (Cx α)) {c : ℕ} (old : Cx α) {z : Cx α}
    (fits : ((rows * cols : ℕ) : Int) ≤ wordLimit) (row : r < rows) (col : c < cols) (place : done.length = r * cols + c)
    (finite : z.isFinite = true) :
    (⟨rows, cols, (done ++ old :: later).toArray⟩ : Dense α).write r c z =
      .ok ⟨rows, cols, (done ++ z :: later).toArray⟩ := by
  set m : Dense α := ⟨rows, cols, (done ++ old :: later).toArray⟩ with own
  have inside : m.inRange r c = true := inRange_iff.mpr (by simp only [own]; omega)
  have offset : m.offset r c = (done.length : Int) := by
    rw [offset_eq inside (by simpa [extent, own] using fits), place]
    simp [own]
  rw [write, inside, finite]
  dsimp only
  rw [offset, if_neg (by decide), if_neg (by decide), if_pos (by simp [own])]
  simp [own]

theorem writeRow_eq {row : List (Cx α)} (done later : List (Cx α)) {c : ℕ}
    (fits : ((rows * cols : ℕ) : Int) ≤ wordLimit) (inside : r < rows) (width : c + row.length = cols)
    (place : done.length = r * cols + c) (finite : ∀ z ∈ row, z.isFinite = true) :
    writeRow r c row ⟨rows, cols, (done ++ (List.replicate row.length 0 ++ later)).toArray⟩ =
      .ok ⟨rows, cols, (done ++ (row ++ later)).toArray⟩ := by
  induction row generalizing c done with
  | nil => rfl
  | cons z row ih =>
    rw [List.length_cons] at width
    have first := write_next done (List.replicate row.length 0 ++ later) 0 fits inside (by omega) place (finite z (by simp))
    have rest := ih (done ++ [z]) (c := c + 1) (by omega) (by simp [place, Nat.add_assoc])
      fun w member => finite w (by simp [member])
    rw [List.append_assoc, List.append_assoc] at rest
    rw [writeRow, List.length_cons, List.replicate_succ, List.cons_append, first]
    exact rest

/-- Rows of one length fill the storage in their order. -/
theorem writeRows_eq {entries : List (List (Cx α))} (done : List (Cx α)) (fits : ((rows * cols : ℕ) : Int) ≤ wordLimit)
    (height : r + entries.length = rows) (place : done.length = r * cols) (even : ∀ row ∈ entries, row.length = cols)
    (finite : ∀ row ∈ entries, ∀ z ∈ row, z.isFinite = true) :
    writeRows cols r entries ⟨rows, cols, (done ++ List.replicate (entries.length * cols) 0).toArray⟩ =
      .ok ⟨rows, cols, (done ++ entries.flatten).toArray⟩ := by
  induction entries generalizing r done with
  | nil => simp [writeRows]
  | cons row entries ih =>
    have width := even row (by simp)
    rw [List.length_cons] at height
    have first := writeRow_eq done (List.replicate (entries.length * cols) 0) (c := 0) fits (by omega) (by omega) place
      (finite row (by simp))
    have rest := ih (done ++ row) (r := r + 1) (by omega) (by rw [List.length_append, place, width, Nat.succ_mul])
      (fun other member => even other (by simp [member])) fun other member => finite other (by simp [member])
    rw [List.append_assoc, List.append_assoc] at rest
    rw [width] at first
    rw [writeRows, if_neg (by simpa using width), List.length_cons, Nat.succ_mul, Nat.add_comm, List.replicate_add, first]
    exact rest

/-- Rows of one length are stored in their order. -/
theorem ofRows_eq {entries : List (List (Cx α))} (filled : entries ≠ []) (positive : 0 < cols)
    (even : ∀ row ∈ entries, row.length = cols) (finite : ∀ row ∈ entries, ∀ z ∈ row, z.isFinite = true)
    (fits : ((entries.length * cols : ℕ) : Int) ≤ capacity) :
    ofRows entries = .ok ⟨entries.length, cols, entries.flatten.toArray⟩ := by
  have below : capacity < wordLimit := by decide
  have blank := zero_eq (α := α) ⟨List.length_pos_iff.mpr filled, positive⟩ fits
  have written := writeRows_eq [] (r := 0) (by omega) (Nat.zero_add _) (by simp) even finite
  cases entries with
  | nil => exact absurd rfl filled
  | cons first rest =>
    obtain rfl := even first (by simp)
    rw [ofRows, Outcome.step_eq_ok]
    refine bind_eq_ok.mpr ⟨_, blank, ?_⟩
    simpa using written

end Filling

end Dense

end Entangle
