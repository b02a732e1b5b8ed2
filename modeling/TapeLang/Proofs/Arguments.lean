import Mathlib.Data.List.TakeWhile
import TapeLang.CommandLine.Flags

/-! # Command lines

How flags are written and what a command line says: which flags it sets to which
values, in which order, and what its operands are. A command line is accepted exactly
if it says something and all the values fit their flags.
-/

namespace TapeLang

/-! ## Flags -/

/-- A flag as an argument, with one or two dashes. -/
def FlagName.spelled (double : Bool) (flag : FlagName) (value : Option String) : String :=
  (if double then "--" else "-") ++ flag.name ++ value.elim "" ("=" ++ ·)

/-- What follows the dashes of a flag. -/
def Argument.afterDashes (name : String) (value : Option String) : List Char :=
  name.toList ++ value.elim [] ('=' :: ·.toList)

theorem FlagName.toList_spelled (double : Bool) (flag : FlagName) (value : Option String) :
    (flag.spelled double value).toList =
      (if double then ['-', '-'] else ['-']) ++ Argument.afterDashes flag.name value := by
  cases double <;> cases value <;> simp [spelled, Argument.afterDashes]

/-- The name of a flag cannot be taken for dashes, and it ends before the equals sign. -/
theorem FlagName.name_spelled (flag : FlagName) : ∃ first rest,
    flag.name.toList = first :: rest ∧ first ≠ '-' ∧ first ≠ '=' ∧ '=' ∉ rest := by
  cases flag <;> exact ⟨_, _, rfl, by decide, by decide, by decide⟩

theorem FlagName.ofName?_name (flag : FlagName) : ofName? flag.name = some flag := by
  cases flag <;> decide

namespace Argument

/-- A name without an equals sign is found up to the end or up to the equals sign. -/
theorem ofName_afterDashes {name : String} {first : Char} {rest : List Char}
    (spelled : name.toList = first :: rest) (notDash : first ≠ '-') (notEquals : first ≠ '=')
    (noEquals : '=' ∉ rest) (value : Option String) :
    ofName (afterDashes name value) = .flag name value := by
  have whole : name = String.ofList (first :: rest) := by rw [← spelled, String.ofList_toList]
  have passed : ∀ c ∈ rest, (c != '=') = true :=
    fun c member => bne_iff_ne.mpr (ne_of_mem_of_not_mem member noEquals)
  cases value with
  | none =>
      simp [ofName, afterDashes, notDash, notEquals, whole,
        List.takeWhile_eq_self_iff.mpr passed, List.dropWhile_eq_nil_iff.mpr passed]
  | some value =>
      simp [ofName, afterDashes, notDash, notEquals, whole,
        List.takeWhile_append_of_pos passed, List.dropWhile_append_of_pos passed]

theorem ofString_spelled (double : Bool) (flag : FlagName) (value : Option String) :
    ofString (flag.spelled double value) = .flag flag.name value := by
  obtain ⟨first, rest, name, notDash, notEquals, noEquals⟩ := flag.name_spelled
  rw [← ofName_afterDashes name notDash notEquals noEquals value]
  cases double with
  | true => simp [ofString, flag.toList_spelled, afterDashes, name]
  | false => simp [ofString, flag.toList_spelled, afterDashes, name, notDash]

theorem ofName_ne (text : List Char) : ofName text ≠ .operand ∧ ofName text ≠ .terminator := by
  unfold ofName
  split
  · simp
  · dsimp only
    split
    · simp
    · split <;> simp

theorem ofString_eq_operand_iff (arg : String) :
    ofString arg = .operand ↔ ∀ c cs, arg.toList ≠ '-' :: c :: cs := by
  unfold ofString
  split
  · next text => simp [text]
  · next text => exact iff_of_false (ofName_ne _).1 fun plain => plain _ _ text
  · next text => exact iff_of_false (ofName_ne _).1 fun plain => plain _ _ text
  · next other => exact iff_of_true rfl other

theorem eq_of_terminator {arg : String} (read : ofString arg = .terminator) : arg = "--" := by
  unfold ofString at read
  split at read
  · next text => exact String.toList_inj.mp text
  · exact absurd read (ofName_ne _).2
  · exact absurd read (ofName_ne _).2
  · cases read

/-- What is read as a flag was written as one. -/
theorem afterDashes_of_ofName {text : List Char} {name : String} {value : Option String}
    (read : ofName text = .flag name value) : text = afterDashes name value := by
  unfold ofName at read
  split at read
  · cases read
  · next first rest =>
    split at read
    · cases read
    · have parts := List.takeWhile_append_dropWhile (p := (· != '=')) (l := rest)
      have stop := List.head?_dropWhile_not (· != '=') rest
      dsimp only at read
      split at read
      · next nothing =>
          cases read
          rw [nothing, List.append_nil] at parts
          simp [afterDashes, parts]
      · next c value found =>
          cases read
          have equals : c = '=' := by simpa [found] using stop
          rw [found, equals] at parts
          simp [afterDashes, parts]

theorem spelled_of_ofString {arg name : String} {value : Option String} {flag : FlagName}
    (read : ofString arg = .flag name value) (known : FlagName.ofName? name = some flag) :
    ∃ double, arg = flag.spelled double value := by
  have same : flag.name = name := by simpa using List.find?_some known
  subst same
  unfold ofString at read
  split at read
  · cases read
  · next text =>
      refine ⟨true, String.toList_inj.mp ?_⟩
      rw [flag.toList_spelled, text, afterDashes_of_ofName read]
      rfl
  · next text =>
      refine ⟨false, String.toList_inj.mp ?_⟩
      rw [flag.toList_spelled, text, afterDashes_of_ofName read]
      rfl
  · cases read

end Argument

/-! ## Command lines -/

namespace Flags

variable {f f' : Flags} {args operands : List String} {flag : FlagName} {value : String}
  {sets : List (FlagName × String)}

/-- What a command line says: the flags that it sets, with their values, and its operands. -/
inductive Says : List String → List (FlagName × String) → List String → Prop where
  | nothing : Says [] [] []
  | operands {arg : String} {args : List String} (plain : ∀ c cs, arg.toList ≠ '-' :: c :: cs) :
      Says (arg :: args) [] (arg :: args)
  | terminated (args : List String) : Says ("--" :: args) [] args
  /-- A switch that stands alone is on. -/
  | switch {flag : FlagName} {args operands : List String} {sets : List (FlagName × String)}
      (double : Bool) (alone : flag.isSwitch = true) (later : Says args sets operands) :
      Says (flag.spelled double none :: args) ((flag, "true") :: sets) operands
  | attached {flag : FlagName} {value : String} {args operands : List String}
      {sets : List (FlagName × String)} (double : Bool) (later : Says args sets operands) :
      Says (flag.spelled double (some value) :: args) ((flag, value) :: sets) operands
  | separate {flag : FlagName} {value : String} {args operands : List String}
      {sets : List (FlagName × String)} (double : Bool) (valued : flag.isSwitch = false)
      (later : Says args sets operands) :
      Says (flag.spelled double none :: value :: args) ((flag, value) :: sets) operands

/-- Set flags one after the other. -/
def acceptAll (f : Flags) (sets : List (FlagName × String)) : Except FlagStop Flags :=
  sets.foldlM (fun f s => f.accept s.1 s.2) f

theorem set_of_accept (accepted : f.accept flag value = .ok f') : f.set flag value = .ok f' := by
  unfold accept at accepted
  split at accepted
  · next set =>
      cases accepted
      exact set
  · split at accepted <;> cases accepted

theorem exists_of_bind {ε α β : Type} {x : Except ε α} {g : α → Except ε β} {b : β}
    (ok : x >>= g = .ok b) : ∃ a, x = .ok a ∧ g a = .ok b := by
  cases x with
  | error => cases ok
  | ok a => exact ⟨a, rfl, ok⟩

/-- The input files that settings of flags add. -/
def filesOf (sets : List (FlagName × String)) : List String :=
  (sets.filter (·.1 = .withFile)).map (·.2)

/-- Only its own flag adds an input file, behind those that there are. -/
theorem set_keeps (set : f.set flag value = .ok f') :
    f'.withFiles = f.withFiles ++ filesOf [(flag, value)] ∧ f'.operands = f.operands := by
  cases flag with
  | withFile | config | log =>
      cases set
      simp [filesOf]
  | optimize | debug | disasm | noFix | noRaw | dump | tape | verbose =>
      obtain ⟨_, _, done⟩ := exists_of_bind set
      cases done
      simp [filesOf]

theorem acceptAll_keeps (accepted : f.acceptAll sets = .ok f') :
    f'.withFiles = f.withFiles ++ filesOf sets ∧ f'.operands = f.operands := by
  induction sets generalizing f with
  | nil =>
      cases accepted
      simp [filesOf]
  | cons s sets ih =>
      rw [acceptAll, List.foldlM_cons] at accepted
      obtain ⟨g, first, others⟩ := exists_of_bind accepted
      obtain ⟨files, kept⟩ := set_keeps (set_of_accept first)
      obtain ⟨files', kept'⟩ := ih others
      have joined : filesOf (s :: sets) = filesOf [s] ++ filesOf sets := by
        simp [filesOf, ← List.map_append, ← List.filter_append]
      rw [files', files, kept', kept, joined, List.append_assoc]
      exact ⟨rfl, rfl⟩

theorem parse_switch (double : Bool) (alone : flag.isSwitch = true) :
    f.parse (flag.spelled double none :: args) = f.accept flag "true" >>= (·.parse args) := by
  rw [parse, Argument.ofString_spelled]
  simp only [flag.ofName?_name, alone, if_true, Option.getD_none]
  cases f.accept flag "true" <;> rfl

theorem parse_attached (double : Bool) :
    f.parse (flag.spelled double (some value) :: args) =
      f.accept flag value >>= (·.parse args) := by
  rw [parse, Argument.ofString_spelled]
  simp only [flag.ofName?_name, Option.getD_some]
  cases f.accept flag value <;> simp only [ite_self] <;> rfl

theorem parse_separate (double : Bool) (valued : flag.isSwitch = false) :
    f.parse (flag.spelled double none :: value :: args) =
      f.accept flag value >>= (·.parse args) := by
  rw [parse, Argument.ofString_spelled]
  simp only [flag.ofName?_name, valued, Bool.false_eq_true, if_false]
  cases f.accept flag value <;> rfl

theorem accept_parse (fresh : f.operands = [])
    (later : ∀ g : Flags, g.operands = [] →
      g.parse args = (g.acceptAll sets).map ({ · with operands })) :
    (f.accept flag value >>= (·.parse args)) =
      (f.acceptAll ((flag, value) :: sets)).map ({ · with operands }) := by
  rw [acceptAll, List.foldlM_cons]
  cases accepted : f.accept flag value with
  | error => rfl
  | ok g =>
      have kept := (set_keeps (set_of_accept accepted)).2
      exact later g (kept.trans fresh)

/-- What a command line says is done in order. -/
theorem Says.parse_eq (said : Says args sets operands) (fresh : f.operands = []) :
    f.parse args = (f.acceptAll sets).map ({ · with operands }) := by
  induction said generalizing f with
  | nothing =>
      obtain ⟨⟩ := f
      cases fresh
      rfl
  | operands plain =>
      rw [parse, (Argument.ofString_eq_operand_iff _).mpr plain]
      rfl
  | terminated => rfl
  | switch double alone _ ih =>
      rw [parse_switch double alone]
      exact accept_parse fresh fun _ => ih
  | attached double _ ih =>
      rw [parse_attached double]
      exact accept_parse fresh fun _ => ih
  | separate double valued _ ih =>
      rw [parse_separate double valued]
      exact accept_parse fresh fun _ => ih

/-- A command line that is accepted says something. -/
theorem exists_said (parsed : f.parse args = .ok f') :
    ∃ sets operands, Says args sets operands := by
  fun_induction parse f args with
  | case1 => exact ⟨[], [], .nothing⟩
  | case2 f arg args read =>
      exact ⟨[], _, .operands ((Argument.ofString_eq_operand_iff arg).mp read)⟩
  | case3 f arg args read =>
      rw [Argument.eq_of_terminator read]
      exact ⟨[], args, .terminated args⟩
  | case4 | case5 | case6 | case7 | case9 | case11 | case13 => cases parsed
  | case8 f arg args name value read flag known alone _ _ ih =>
      obtain ⟨sets, operands, later⟩ := ih parsed
      obtain ⟨double, rfl⟩ := Argument.spelled_of_ofString read known
      cases value with
      | none => exact ⟨_, operands, .switch double alone later⟩
      | some value => exact ⟨_, operands, .attached double later⟩
  | case10 f arg name flag known _ value args _ _ read ih =>
      obtain ⟨sets, operands, later⟩ := ih parsed
      obtain ⟨double, rfl⟩ := Argument.spelled_of_ofString read known
      exact ⟨_, operands, .attached double later⟩
  | case12 f arg name flag known valued value args _ _ read ih =>
      obtain ⟨sets, operands, later⟩ := ih parsed
      obtain ⟨double, rfl⟩ := Argument.spelled_of_ofString read known
      exact ⟨_, operands, .separate double (by simpa using valued) later⟩

/-- A command line adds these input files. -/
def Adds (args files : List String) : Prop :=
  ∃ sets operands, Says args sets operands ∧ filesOf sets = files

theorem exists_adds (parsed : f.parse args = .ok f') : ∃ files, Adds args files := by
  obtain ⟨sets, operands, said⟩ := exists_said parsed
  exact ⟨filesOf sets, sets, operands, said, rfl⟩

theorem Adds.eq_withFiles {files : List String} (adds : Adds args files)
    (parsed : parse {} args = .ok f) : files = f.withFiles := by
  obtain ⟨sets, operands, said, rfl⟩ := adds
  rw [said.parse_eq rfl] at parsed
  cases accepted : acceptAll {} sets with
  | error e =>
      rw [accepted] at parsed
      cases parsed
  | ok g =>
      rw [accepted] at parsed
      cases parsed
      exact (acceptAll_keeps accepted).1.symm

end Flags

end TapeLang
