import Entangle.Text.ClusterTable

/-!
# Clusters of characters

A reader takes a cluster for one character: a letter with its marks, a conjoining syllable, consonants
tied by a linker, pictures tied by a joiner, two regional letters for a flag. A text falls into clusters
from left to right, and whether a character belongs to the cluster before it hangs only on the roles
that the characters of that cluster have.
-/

namespace Entangle.Text

/-- What a character does at the border of a cluster. -/
inductive Role where
  | carriageReturn
  | lineFeed
  | control
  | mark
  /-- a mark that keeps consonants apart -/
  | separator
  /-- a mark that links consonants -/
  | linker
  /-- ties pictures together -/
  | joiner
  | spacingMark
  | preposed
  | regional
  | picture
  | consonant
  /-- the parts of a conjoining syllable: its lead, its vowel and its tail -/
  | lead
  | vowel
  | tail
  /-- whole syllables, without and with a tail -/
  | openSyllable
  | closedSyllable
  | plain
deriving Repr, DecidableEq

namespace Role

def leadRuns : Runs := #[(0x1100, 0x115F), (0xA960, 0xA97C)]

def vowelRuns : Runs :=
  #[(0x1160, 0x11A7), (0xD7B0, 0xD7C6), (0x16D63, 0x16D63), (0x16D67, 0x16D6A)]

def tailRuns : Runs := #[(0x11A8, 0x11FF), (0xD7CB, 0xD7FB)]

/-- Whole syllables stand in rows of 28, the one without a tail first. -/
def ofSyllable (c : Char) : Role :=
  if (c.toNat - 0xAC00) % 28 = 0 then openSyllable else closedSyllable

def ofChar (c : Char) : Role :=
  if c == '\r' then carriageReturn
  else if c == '\n' then lineFeed
  else if 0x20 ≤ c.toNat && c.toNat < 0x7F then plain
  else if controlRuns.hold c then control
  else if c == '\u200d' then joiner
  else if c == '\u200c' then separator
  else if linkerRuns.hold c then linker
  else if markRuns.hold c then mark
  else if spacingMarkRuns.hold c then spacingMark
  else if preposedRuns.hold c then preposed
  else if 0x1F1E6 ≤ c.toNat && c.toNat ≤ 0x1F1FF then regional
  else if pictureRuns.hold c then picture
  else if consonantRuns.hold c then consonant
  else if leadRuns.hold c then lead
  else if vowelRuns.hold c then vowel
  else if tailRuns.hold c then tail
  else if 0xAC00 ≤ c.toNat && c.toNat ≤ 0xD7A3 then ofSyllable c
  else plain

/-- Nothing is clustered with a control. -/
def isControl : Role → Bool
  | carriageReturn | lineFeed | control => true
  | _ => false

/-- Marks without a place of their own. -/
def isMark : Role → Bool
  | mark | separator | linker => true
  | _ => false

/-- Belongs to whatever precedes it. -/
def isAttached : Role → Bool
  | mark | separator | linker | joiner | spacingMark => true
  | _ => false

/-- The second role carries on a syllable that the first begins. -/
def continues : Role → Role → Bool
  | lead, lead | lead, vowel | lead, openSyllable | lead, closedSyllable => true
  | openSyllable, vowel | openSyllable, tail | vowel, vowel | vowel, tail => true
  | closedSyllable, tail | tail, tail => true
  | _, _ => false

end Role

/-- How far a tie between two consonants has got. -/
inductive ConsonantTie where
  | none
  | begun
  | linked
deriving Repr, DecidableEq

/-- How far a tie between two pictures has got. -/
inductive PictureTie where
  | none
  | begun
  | joined
deriving Repr, DecidableEq

def ConsonantTie.step (tie : ConsonantTie) : Role → ConsonantTie
  | .consonant => .begun
  | .linker => if tie = .none then .none else .linked
  | .mark | .joiner => tie
  | _ => .none

def PictureTie.step (tie : PictureTie) (role : Role) : PictureTie :=
  if role = .picture then .begun
  else if tie = .begun ∧ role.isMark then .begun
  else if tie = .begun ∧ role = .joiner then .joined
  else .none

/-- What the characters of a cluster leave for the decision on the next one. -/
structure Cluster where
  last : Role
  consonants : ConsonantTie
  pictures : PictureTie
  /-- the last character is a regional letter that waits for a second one -/
  awaitsRegional : Bool
deriving Repr, DecidableEq

namespace Cluster

def start (role : Role) : Cluster :=
  ⟨role, ConsonantTie.none.step role, PictureTie.none.step role, role == .regional⟩

/-- The cluster with one more character. -/
def push (k : Cluster) (role : Role) : Cluster :=
  ⟨role, k.consonants.step role, k.pictures.step role, role == .regional && !k.awaitsRegional⟩

/-- The next character belongs to the cluster. -/
def admits (k : Cluster) (role : Role) : Bool :=
  if k.last == .carriageReturn && role == .lineFeed then true
  else if k.last.isControl || role.isControl then false
  else
    role.isAttached || k.last == .preposed || k.last.continues role ||
      (k.consonants == .linked && role == .consonant) || (k.pictures == .joined && role == .picture) ||
      (k.awaitsRegional && role == .regional)

/-- The characters that belong to the cluster, and those after it. -/
def split (k : Cluster) : List Char → List Char × List Char
  | [] => ([], [])
  | c :: rest =>
      if k.admits (Role.ofChar c) then
        let (inner, after) := (k.push (Role.ofChar c)).split rest
        (c :: inner, after)
      else ([], c :: rest)

/-- No character is lost. -/
theorem split_append (k : Cluster) (cs : List Char) : (k.split cs).1 ++ (k.split cs).2 = cs := by
  induction cs generalizing k with
  | nil => rfl
  | cons c rest ih =>
      unfold split
      split
      · simp [ih]
      · rfl

theorem length_split_le (k : Cluster) (cs : List Char) : (k.split cs).2.length ≤ cs.length := by
  have whole := congrArg List.length (k.split_append cs)
  rw [List.length_append] at whole
  omega

end Cluster

/-- The clusters of a text, in order. -/
def clusters : List Char → List (List Char)
  | [] => []
  | c :: rest =>
      let parts := (Cluster.start (Role.ofChar c)).split rest
      (c :: parts.1) :: clusters parts.2
termination_by cs => cs.length
decreasing_by
  have := (Cluster.start (Role.ofChar c)).length_split_le rest
  simp only [List.length_cons]
  omega

end Entangle.Text
