import Mathlib
import Entangle.Command.Flag

/-!
# Reading flags

The flags at the front of a list of arguments are read one after another, each from one argument or from two. What is
read is described by the flags that were written and the arguments after them, apart from the reading: the reading gives
a result if and only if the arguments are so written, and a setting then has the text of its last flag.
-/

namespace Entangle.Command.Flag

/-! ## Single arguments -/

/-- A name that can stand in a flag: it is not empty, begins with no dash and has no equals sign. -/
structure IsName (name : String) : Prop where
  nonempty : name.toList ≠ []
  undashed : name.toList.head? ≠ some '-'
  plain : '=' ∉ name.toList

theorem isName_name (f : Flag) : IsName f.name := by
  cases f with
  | setting s => cases s <;> exact ⟨by decide, by decide, by decide⟩
  | switch s => cases s <;> exact ⟨by decide, by decide, by decide⟩

/-- A flag in one argument: one or two dashes, the name, and the text after an equals sign if there is one. -/
def spelled (double : Bool) (name : String) (text : Option String) : String :=
  (if double then "--" else "-") ++ name ++ text.elim "" ("=" ++ ·)

/-- The part of a flag behind its dashes. -/
def body (name : String) (text : Option String) : List Char := name.toList ++ text.elim [] ('=' :: ·.toList)

def dashes (double : Bool) : List Char := if double then ['-', '-'] else ['-']

theorem toList_spelled (double : Bool) (name : String) (text : Option String) :
    (spelled double name text).toList = dashes double ++ body name text := by
  cases double <;> cases text <;> simp [spelled, dashes, body]

/-- A name, and the text after an equals sign if there is one, are read as that flag. -/
theorem ofBody_body {name : String} (named : IsName name) (text : Option String) :
    Argument.ofBody (body name text) = .flag name text := by
  obtain ⟨nonempty, undashed, plain⟩ := named
  obtain ⟨c, rest, chars⟩ := List.exists_cons_of_ne_nil nonempty
  rw [chars] at undashed plain
  rw [List.mem_cons, not_or] at plain
  have passed : ∀ d ∈ rest, (d != '=') = true := fun d inside => by
    rw [bne_iff_ne]
    rintro rfl
    exact plain.2 inside
  have whole : String.ofList (c :: rest) = name := by rw [← chars, String.ofList_toList]
  rw [body, chars, List.cons_append, Argument.ofBody.eq_4 _ _ (fun dash => undashed (by rw [dash]; rfl))
    (fun equals => plain.1 equals.symm), List.takeWhile_append_of_pos passed, List.dropWhile_append_of_pos passed]
  cases text with
  | none => simp [whole]
  | some value => simp [whole]

/-- What is read as a flag is its name up to the first equals sign, and the text after it. -/
theorem eq_body_of_ofBody {cs : List Char} {name : String} {text : Option String}
    (found : Argument.ofBody cs = .flag name text) : IsName name ∧ cs = body name text := by
  rcases cs with - | ⟨c, rest⟩
  · cases found
  have undashed : c ≠ '-' := fun dash => by
    subst dash
    cases found
  have plain : c ≠ '=' := fun equals => by
    subst equals
    cases found
  rw [Argument.ofBody.eq_4 c rest undashed plain] at found
  have before : '=' ∉ rest.takeWhile (· != '=') := fun inside => by simpa using List.mem_takeWhile_imp inside
  have named : IsName (String.ofList (c :: rest.takeWhile (· != '='))) := by
    refine ⟨?_, ?_, ?_⟩ <;> simp [undashed, plain.symm, before]
  -- what is left after the name is nothing, or begins with the equals sign
  have parts := rest.takeWhile_append_dropWhile (p := (· != '='))
  cases after : rest.dropWhile (· != '=') with
  | nil =>
    rw [after] at found parts
    obtain ⟨rfl, rfl⟩ := Argument.flag.inj found
    refine ⟨named, ?_⟩
    rw [body, String.toList_ofList, List.cons_append, Option.elim_none, parts]
  | cons d later =>
    obtain rfl : d = '=' := by simpa [after] using rest.head?_dropWhile_not (· != '=')
    rw [after] at found parts
    obtain ⟨rfl, rfl⟩ := Argument.flag.inj found
    refine ⟨named, ?_⟩
    rw [body, String.toList_ofList, List.cons_append, Option.elim_some, String.toList_ofList, parts]

/-- Behind the dashes, a flag is read from exactly its own spelling. -/
theorem ofBody_eq_flag_iff {cs : List Char} {name : String} {text : Option String} :
    Argument.ofBody cs = .flag name text ↔ IsName name ∧ cs = body name text := by
  constructor
  · exact eq_body_of_ofBody
  · rintro ⟨named, rfl⟩
    exact ofBody_body named text

/-- What stands behind dashes is a flag or malformed. -/
theorem ofBody_cases (cs : List Char) :
    Argument.ofBody cs = .malformed ∨ ∃ name text, Argument.ofBody cs = .flag name text := by
  unfold Argument.ofBody
  split
  · exact .inl rfl
  · exact .inl rfl
  · exact .inl rfl
  · right
    dsimp only
    split <;> exact ⟨_, _, rfl⟩

/-- An argument is no flag, ends the flags, or has something behind its dashes. -/
theorem ofText_cases (argument : String) :
    (Argument.ofText argument = .positional ∧ (argument = "-" ∨ argument.toList.head? ≠ some '-')) ∨
    (Argument.ofText argument = .endOfFlags ∧ argument = "--") ∨
    ∃ double cs, cs ≠ [] ∧ argument.toList = dashes double ++ cs ∧ Argument.ofText argument = Argument.ofBody cs := by
  rw [Argument.ofText]
  split
  · rename_i chars
    exact .inr (.inl ⟨rfl, String.toList_inj.mp chars⟩)
  · rename_i cs further chars
    exact .inr (.inr ⟨true, cs, further, chars, rfl⟩)
  · rename_i c cs _ _ chars
    exact .inr (.inr ⟨false, c :: cs, List.cons_ne_nil c cs, chars, rfl⟩)
  · rename_i _ _ undashed
    refine .inl ⟨rfl, ?_⟩
    rw [← String.toList_inj]
    rcases chars : argument.toList with - | ⟨c, - | ⟨d, cs⟩⟩
    · exact .inr (by simp)
    · by_cases dash : c = '-'
      · exact .inl (by rw [dash]; rfl)
      · exact .inr (by simpa using dash)
    · exact .inr fun dash => undashed d cs (by rw [chars, Option.some.inj dash])

theorem ofText_eq_endOfFlags_iff {argument : String} : Argument.ofText argument = .endOfFlags ↔ argument = "--" := by
  refine ⟨fun found => ?_, fun same => same ▸ by decide⟩
  obtain ⟨is, -⟩ | ⟨-, same⟩ | ⟨_, cs, -, -, is⟩ := ofText_cases argument
  · cases is.symm.trans found
  · exact same
  · rcases ofBody_cases cs with other | ⟨_, _, other⟩ <;> cases other.symm.trans (is.symm.trans found)

theorem ofText_eq_positional_iff {argument : String} :
    Argument.ofText argument = .positional ↔ argument = "-" ∨ argument.toList.head? ≠ some '-' := by
  obtain ⟨is, plain⟩ | ⟨is, rfl⟩ | ⟨double, cs, some, chars, is⟩ := ofText_cases argument
  · exact ⟨fun _ => plain, fun _ => is⟩
  · decide
  · refine ⟨fun found => ?_, fun plain => ?_⟩
    · rcases ofBody_cases cs with other | ⟨_, _, other⟩ <;> cases other.symm.trans (is.symm.trans found)
    · rcases plain with rfl | undashed
      · cases double <;> simp [dashes, some] at chars
      · exact absurd (by cases double <;> simp [chars, dashes]) undashed

theorem ofText_eq_flag_iff {argument name : String} {text : Option String} :
    Argument.ofText argument = .flag name text ↔ IsName name ∧ ∃ double, argument = spelled double name text := by
  constructor
  · intro found
    obtain ⟨is, -⟩ | ⟨is, -⟩ | ⟨double, cs, -, chars, is⟩ := ofText_cases argument
    · cases is.symm.trans found
    · cases is.symm.trans found
    · obtain ⟨named, rfl⟩ := ofBody_eq_flag_iff.mp (is.symm.trans found)
      exact ⟨named, double, String.toList_inj.mp (chars.trans (toList_spelled double name text).symm)⟩
  · rintro ⟨named, double, rfl⟩
    have found : Argument.ofBody (body name text) = .flag name text := ofBody_eq_flag_iff.mpr ⟨named, rfl⟩
    obtain ⟨c, rest, first⟩ := List.exists_cons_of_ne_nil named.nonempty
    have undashed : c ≠ '-' := fun dash => named.undashed (by rw [first, dash]; rfl)
    rw [body, first, List.cons_append] at found
    rw [Argument.ofText, toList_spelled, body, first, List.cons_append]
    cases double
    · simpa [dashes, undashed] using found
    · simpa [dashes] using found

theorem ofText_spelled (f : Flag) (double : Bool) (text : Option String) :
    Argument.ofText (spelled double f.name text) = .flag f.name text :=
  ofText_eq_flag_iff.mpr ⟨isName_name f, double, rfl⟩

theorem ofName?_name (f : Flag) : ofName? f.name = some f := by
  cases f with
  | setting s => cases s <;> decide
  | switch s => cases s <;> decide

theorem name_of_ofName? {name : String} {f : Flag} (found : ofName? name = some f) : f.name = name := by
  simpa using List.find?_some found

theorem spelled_of_ofText {argument name : String} {text : Option String} {f : Flag}
    (found : Argument.ofText argument = .flag name text) (known : ofName? name = some f) :
    ∃ double, argument = spelled double f.name text :=
  name_of_ofName? known ▸ (ofText_eq_flag_iff.mp found).2

/-! ## What is written -/

/-- What one flag says. -/
inductive Item where
  | text (s : Setting) (value : String)
  | switch (s : Switch) (on : Bool)

/-- The arguments that say something of a setting or a switch. -/
inductive Item.Written : Item → List String → Prop
  | joined (s : Setting) (double : Bool) (value : String) :
      Written (.text s value) [spelled double (Flag.setting s).name (some value)]
  | apart (s : Setting) (double : Bool) (value : String) :
      Written (.text s value) [spelled double (Flag.setting s).name none, value]
  | alone (s : Switch) (double : Bool) : Written (.switch s true) [spelled double (Flag.switch s).name none]
  | told (s : Switch) (double : Bool) {value : String} {on : Bool} (denoted : boolean? value = some on) :
      Written (.switch s on) [spelled double (Flag.switch s).name (some value)]

/-- Where reading ends, and which arguments it leaves. -/
inductive Ends : List String → List String → Prop
  | exhausted : Ends [] []
  | told {argument : String} (rest : List String) (dashes : argument = "--") : Ends (argument :: rest) rest
  | positional {argument : String} (rest : List String) (plain : argument = "-" ∨ argument.toList.head? ≠ some '-') :
      Ends (argument :: rest) (argument :: rest)

/-- The flags at the front of the arguments say these items and leave the rest. -/
inductive Reads : List String → List Item → List String → Prop
  | done {arguments rest : List String} (ends : Ends arguments rest) : Reads arguments [] rest
  | next {item : Item} {words arguments rest : List String} {items : List Item} (written : item.Written words)
      (reads : Reads arguments items rest) : Reads (words ++ arguments) (item :: items) rest

/-- A flag before the end of reading gives the setting a text, whatever comes after that flag. -/
inductive Sets (s : Setting) : List String → Prop
  | here {value : String} {words : List String} (written : (Item.text s value).Written words) (later : List String) :
      Sets s (words ++ later)
  | later {item : Item} {words arguments : List String} (written : item.Written words) (sets : Sets s arguments) :
      Sets s (words ++ arguments)

/-- What is given after one more item. -/
def Given.with (g : Given) : Item → Given
  | .text s value => g.withText s value
  | .switch s on => g.withSwitch s on

/-- The text that an item gives to a setting. -/
def Item.textFor (s : Setting) : Item → Option String
  | .text t value => if s = t then some value else none
  | .switch _ _ => none

/-- The position that an item puts a switch in. -/
def Item.positionFor (s : Switch) : Item → Option Bool
  | .text _ _ => none
  | .switch t on => if s = t then some on else none

variable {g g' : Given} {s : Setting} {item : Item} {items : List Item} {words arguments rest : List String}

theorem Given.text_with (g : Given) (item : Item) (s : Setting) :
    (g.with item).text s = (item.textFor s).or (g.text s) := by
  cases item with
  | text t value =>
    simp only [Given.with, Given.text_withText, Item.textFor]
    split <;> rfl
  | switch t on => rfl

theorem Given.isOn_with (g : Given) (item : Item) (s : Switch) :
    (g.with item).isOn s = (item.positionFor s).getD (g.isOn s) := by
  cases item with
  | text t value => rfl
  | switch t on =>
    simp only [Given.with, Given.isOn_withSwitch, Item.positionFor]
    split <;> rfl

/-- The last of the items that speak of a thing. -/
def lastOf {β : Type} (said : Item → Option β) (items : List Item) : Option β := (items.filterMap said).getLast?

theorem lastOf_cons {β : Type} (said : Item → Option β) (item : Item) (items : List Item) :
    lastOf said (item :: items) = (lastOf said items).or (said item) := by
  rw [lastOf, lastOf, List.filterMap_cons]
  cases said item with
  | none => simp
  | some value => cases later : (items.filterMap said).getLast? <;> simp [List.getLast?_cons, later]

/-- Of several flags for a setting the last one counts. -/
theorem Given.text_foldl (g : Given) (items : List Item) (s : Setting) :
    (items.foldl Given.with g).text s = (lastOf (Item.textFor s) items).or (g.text s) := by
  induction items generalizing g with
  | nil => rfl
  | cons item items ih => rw [List.foldl_cons, ih, Given.text_with, lastOf_cons, Option.or_assoc]

theorem Given.isOn_foldl (g : Given) (items : List Item) (s : Switch) :
    (items.foldl Given.with g).isOn s = (lastOf (Item.positionFor s) items).getD (g.isOn s) := by
  induction items generalizing g with
  | nil => rfl
  | cons item items ih =>
    rw [List.foldl_cons, ih, Given.isOn_with, lastOf_cons]
    cases lastOf (Item.positionFor s) items <;> simp

/-! ## The reading -/

/-- A flag that is written is read, from one argument or two. -/
theorem readFrom_append (written : item.Written words) (g : Given) (arguments : List String) :
    readFrom g (words ++ arguments) = readFrom (g.with item) arguments := by
  cases written with
  | joined s double value => simp [readFrom, ofText_spelled, ofName?_name, Given.with]
  | apart s double value => simp [readFrom, ofText_spelled, ofName?_name, Given.with]
  | alone s double => simp [readFrom, ofText_spelled, ofName?_name, Given.with]
  | told s double denoted => simp [readFrom, ofText_spelled, ofName?_name, denoted, Given.with]

theorem Reads.after (written : item.Written words)
    (reads : ∃ items, Reads arguments items rest ∧ items.foldl Given.with (g.with item) = g') :
    ∃ items, Reads (words ++ arguments) items rest ∧ items.foldl Given.with g = g' := by
  obtain ⟨items, reads, result⟩ := reads
  exact ⟨item :: items, .next written reads, result⟩

/-- Reading gives a result if and only if flags and an end are written, and the result is what the flags say. -/
theorem readFrom_eq_ok_iff : readFrom g arguments = .ok (g', rest) ↔
    ∃ items, Reads arguments items rest ∧ items.foldl Given.with g = g' := by
  constructor
  · intro found
    fun_induction readFrom g arguments with
    | case1 g =>
      cases found
      exact ⟨[], .done .exhausted, rfl⟩
    | case2 g argument later is =>
      cases found
      exact ⟨[], .done (.positional later (ofText_eq_positional_iff.mp is)), rfl⟩
    | case3 g argument later is =>
      cases found
      exact ⟨[], .done (.told _ (ofText_eq_endOfFlags_iff.mp is)), rfl⟩
    | case6 g argument later name s known is ih =>
      obtain ⟨double, rfl⟩ := spelled_of_ofText is known
      exact Reads.after (.alone s double) (ih found)
    | case7 g argument later name s known value on denoted is ih =>
      obtain ⟨double, rfl⟩ := spelled_of_ofText is known
      exact Reads.after (.told s double denoted) (ih found)
    | case9 g argument later name s known value is ih =>
      obtain ⟨double, rfl⟩ := spelled_of_ofText is known
      exact Reads.after (.joined s double value) (ih found)
    | case10 g argument name s known value later is ih =>
      obtain ⟨double, rfl⟩ := spelled_of_ofText is known
      exact Reads.after (.apart s double value) (ih found)
    -- the other cases are refusals
    | _ => cases found
  · rintro ⟨items, reads, rfl⟩
    induction reads generalizing g with
    | done ends =>
      cases ends with
      | exhausted => rfl
      | told rest dashes =>
        rw [readFrom, ofText_eq_endOfFlags_iff.mpr dashes]
        rfl
      | positional rest plain =>
        rw [readFrom, ofText_eq_positional_iff.mpr plain]
        rfl
    | next written reads ih => rw [readFrom_append written, ih, List.foldl_cons]

theorem Reads.sets (reads : Reads arguments items rest) {value : String}
    (said : value ∈ items.filterMap (Item.textFor s)) : Sets s arguments := by
  induction reads with
  | done => cases said
  | @next item words arguments rest items written reads ih =>
    rw [List.mem_filterMap] at said ih
    obtain ⟨item', inside, said⟩ := said
    rcases List.mem_cons.mp inside with rfl | inside
    · cases item' with
      | text t value' =>
        obtain ⟨rfl, -⟩ := Option.ite_none_right_eq_some.mp said
        exact .here written arguments
      | switch t on => cases said
    · exact .later written (ih ⟨item', inside, said⟩)

/-- A setting has a text after the reading if it had one or a flag gives it one. -/
theorem isSome_text_iff (found : readFrom g arguments = .ok (g', rest)) :
    (g'.text s).isSome = true ↔ (g.text s).isSome = true ∨ Sets s arguments := by
  have kept {g g' : Given} {arguments : List String} (found : readFrom g arguments = .ok (g', rest))
      (given : (g.text s).isSome = true) : (g'.text s).isSome = true := by
    obtain ⟨items, -, rfl⟩ := readFrom_eq_ok_iff.mp found
    rw [Given.text_foldl, Option.isSome_or, given, Bool.or_true]
  constructor
  · obtain ⟨items, reads, rfl⟩ := readFrom_eq_ok_iff.mp found
    rw [Given.text_foldl, Option.isSome_or, Bool.or_eq_true]
    rintro (last | given)
    · obtain ⟨value, last⟩ := Option.isSome_iff_exists.mp last
      exact .inr (reads.sets (List.mem_of_getLast? last))
    · exact .inl given
  · rintro (given | sets)
    · exact kept found given
    -- the text that a flag gives is kept or replaced by what comes after it
    · induction sets generalizing g with
      | here written later =>
        rw [readFrom_append written] at found
        exact kept found (by simp [Given.with])
      | later written sets ih =>
        rw [readFrom_append written] at found
        exact ih found

end Entangle.Command.Flag
