/-!
# Square matrices

Square arrays of a fixed size with materialised entries: building one evaluates each entry once, and
reading an entry repeats no work. A matrix is known by its entries (`Square.ext`), and `get_ofFn` says
that building and reading cancel.
-/

namespace Entangle

/-! The sizes that occur are not zero, so that their indices have numerals. -/

instance instNeZeroTwo : @NeZero Nat Zero.ofOfNat0 2 := ⟨by decide⟩

instance instNeZeroThree : @NeZero Nat Zero.ofOfNat0 3 := ⟨by decide⟩

instance instNeZeroFour : @NeZero Nat Zero.ofOfNat0 4 := ⟨by decide⟩

structure Square (n : Nat) (β : Type) where
  rows : Vector (Vector β n) n

namespace Square

variable {n : Nat} {β γ δ : Type}

def ofFn (entry : Fin n → Fin n → β) : Square n β :=
  ⟨Vector.ofFn fun i => Vector.ofFn fun j => entry i j⟩

def get (m : Square n β) (i j : Fin n) : β := m.rows[i][j]

instance : CoeFun (Square n β) fun _ => Fin n → Fin n → β := ⟨get⟩

@[simp]
theorem get_ofFn (entry : Fin n → Fin n → β) (i j : Fin n) : (ofFn entry) i j = entry i j := by
  simp [ofFn, get]

@[ext]
theorem ext {a b : Square n β} (entries : ∀ i j, a i j = b i j) : a = b := by
  cases a with
  | mk first =>
      cases b with
      | mk second =>
          congr
          apply Vector.ext
          intro i hi
          apply Vector.ext
          intro j hj
          exact entries ⟨i, hi⟩ ⟨j, hj⟩

@[simp]
theorem ofFn_get (m : Square n β) : ofFn m.get = m := by
  ext i j
  simp

def map (f : β → γ) (m : Square n β) : Square n γ := ofFn fun i j => f (m i j)

def zipWith (f : β → γ → δ) (a : Square n β) (b : Square n γ) : Square n δ :=
  ofFn fun i j => f (a i j) (b i j)

def transpose (m : Square n β) : Square n β := ofFn fun i j => m j i

def diagonal (zero : β) (entry : Fin n → β) : Square n β :=
  ofFn fun i j => if i = j then entry i else zero

def toRows (m : Square n β) : List (List β) := m.rows.toList.map Vector.toList

/-- Every pair of corresponding entries passes the test. -/
def all₂ (test : β → γ → Bool) (a : Square n β) (b : Square n γ) : Bool :=
  (List.finRange n).all fun i => (List.finRange n).all fun j => test (a i j) (b i j)

def all (test : β → Bool) (m : Square n β) : Bool :=
  (List.finRange n).all fun i => (List.finRange n).all fun j => test (m i j)

@[simp]
theorem get_map (f : β → γ) (m : Square n β) (i j : Fin n) : m.map f i j = f (m i j) := by
  simp [map]

@[simp]
theorem get_zipWith (f : β → γ → δ) (a : Square n β) (b : Square n γ) (i j : Fin n) :
    zipWith f a b i j = f (a i j) (b i j) := by
  simp [zipWith]

@[simp]
theorem get_transpose (m : Square n β) (i j : Fin n) : m.transpose i j = m j i := by
  simp [transpose]

@[simp]
theorem get_diagonal (zero : β) (entry : Fin n → β) (i j : Fin n) :
    diagonal zero entry i j = if i = j then entry i else zero := by
  simp [diagonal]

theorem all₂_iff (test : β → γ → Bool) (a : Square n β) (b : Square n γ) :
    all₂ test a b = true ↔ ∀ i j, test (a i j) (b i j) = true := by
  simp [all₂]

theorem all_iff (test : β → Bool) (m : Square n β) :
    m.all test = true ↔ ∀ i j, test (m i j) = true := by
  simp [all]

end Square

end Entangle
