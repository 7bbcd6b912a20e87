import Mathlib.Data.List.Basic
import ModuleCompiler.CommandLine

/-!
The arguments of a build. Arguments stand for flags, and options are what taking in the flags one
after the other comes to. That is the same as laying the options of each flag over those before, so
it does not matter where a list of arguments is cut. A mode given as two arguments is taken as it
is, and one given as a single argument only if it is not empty: the two spellings agree up to that.
-/

namespace ModuleCompiler

namespace BuildFlag

/-- What a flag becomes when its mode is given as a single argument. -/
def joined : BuildFlag → BuildFlag
  | .mode name => if name = "" then .emptyMode else .mode name
  | flag => flag

/-- The mode that a flag sets. -/
def mode? : BuildFlag → Option String
  | .mode name => some name
  | _ => none

theorem mode?_joined (flag : BuildFlag) : flag.joined.mode? = flag.mode?.filter (· ≠ "") := by
  cases flag with
  | mode name => by_cases hname : name = "" <;> simp [joined, mode?, Option.filter, hname]
  | _ => rfl

theorem afterStart?_append (start text : String) :
    afterStart? start (start ++ text) = some text := by
  simp [afterStart?, String.toList_append]

theorem ofArgument_mode (name : String) :
    ofArgument ("--mode=" ++ name) = (BuildFlag.mode name).joined := by
  have hother : ∀ fixed : String, "--mode=".toList ++ name.toList ≠ fixed.toList →
      "--mode=" ++ name ≠ fixed := by
    rintro fixed hne rfl
    exact hne (String.toList_append ..).symm
  rw [ofArgument, if_neg (hother _ (by simp)), if_neg (hother _ (by simp)), afterStart?_append]
  rfl

/-- An argument on its own never sets an empty mode. -/
theorem joined_ofArgument (arg : String) : (ofArgument arg).joined = ofArgument arg := by
  unfold ofArgument
  split
  · rfl
  split
  · rfl
  split
  · rename_i name _
    by_cases hname : name = "" <;> simp [joined, hname]
  split
  · rfl
  split
  · rfl
  split <;> rfl

end BuildFlag

namespace BuildOptions

variable {a b : List String}

@[simp] theorem merge_default (o : BuildOptions) : o.merge default = o := by
  simp [merge, default]

@[simp] theorem default_merge (o : BuildOptions) : default.merge o = o := by
  obtain ⟨mode, intermediates, binaries, verbose⟩ := o
  cases mode <;> cases intermediates <;> cases binaries <;> rfl

theorem merge_assoc (o p q : BuildOptions) : (o.merge p).merge q = o.merge (p.merge q) := by
  have horElse : ∀ {α : Type} (x y z : Option α), z.orElse (fun _ => y.orElse fun _ => x) =
      (z.orElse fun _ => y).orElse fun _ => x := by
    intro α x y z
    cases z <;> rfl
  simp only [merge, horElse, Bool.or_assoc]

theorem apply_merge (o p : BuildOptions) (c : Config) :
    (o.merge p).apply c = p.apply (o.apply c) := by
  have hgetD : ∀ {α : Type} (x y : Option α) (v : α),
      (y.orElse fun _ => x).getD v = y.getD (x.getD v) := by
    intro α x y v
    cases y <;> rfl
  simp only [apply, merge, hgetD]

/-- The options with flags taken in, in order. -/
def takeAll (o : BuildOptions) (flags : List BuildFlag) : BuildOptions := flags.foldl take o

theorem take_eq_merge (o : BuildOptions) (flag : BuildFlag) :
    o.take flag = o.merge (default.take flag) := by
  cases flag <;> simp [take, merge, default]

theorem takeAll_eq_merge (o : BuildOptions) (flags : List BuildFlag) :
    o.takeAll flags = o.merge (default.takeAll flags) := by
  induction flags generalizing o with
  | nil => exact (merge_default o).symm
  | cons flag flags ih =>
    calc o.takeAll (flag :: flags)
        = (o.take flag).merge (default.takeAll flags) := ih (o.take flag)
      _ = o.merge ((default.take flag).merge (default.takeAll flags)) := by
        rw [take_eq_merge o, merge_assoc]
      _ = o.merge (default.takeAll (flag :: flags)) := by
        rw [← ih (default.take flag)]
        rfl

theorem parse_eq_takeAll (args : List String) :
    parse args = default.takeAll (args.map .ofArgument) := by
  rw [parse, takeAll, List.foldl_map]

theorem parse_append : parse (a ++ b) = (parse a).merge (parse b) := by
  rw [parse_eq_takeAll b, ← takeAll_eq_merge, parse_eq_takeAll, parse_eq_takeAll, List.map_append,
    takeAll, List.foldl_append]
  rfl

/-- Wherever a list of arguments is cut, the options of its parts laid over one another are those of
the whole. -/
theorem foldl_merge_parse (groups : List (List String)) (o : BuildOptions) :
    (groups.map parse).foldl merge o = o.merge (parse groups.flatten) := by
  induction groups generalizing o with
  | nil => exact (merge_default o).symm
  | cons group groups ih =>
    rw [List.map_cons, List.foldl_cons, ih, List.flatten_cons, parse_append, merge_assoc]

/-- The last flag that sets a mode decides on it. -/
theorem mode_takeAll (o : BuildOptions) (flags : List BuildFlag) :
    (o.takeAll flags).mode = (flags.filterMap BuildFlag.mode?).getLast?.or o.mode := by
  induction flags generalizing o with
  | nil => rfl
  | cons flag flags ih =>
    refine (ih (o.take flag)).trans ?_
    cases flag with
    | mode name =>
      cases h : (flags.filterMap BuildFlag.mode?).getLast? with
      | none => simp [take, BuildFlag.mode?, List.getLast?_cons, h]
      | some last => simp [take, BuildFlag.mode?, List.getLast?_cons, h]
    | _ => rfl

/-- A flag may lose its mode, but nothing else, when it is given as a single argument. -/
theorem takeAll_joined (o : BuildOptions) (flags : List BuildFlag) (mode : Option String) :
    ∃ mode', ({ o with mode := mode } : BuildOptions).takeAll (flags.map .joined) =
      { o.takeAll flags with mode := mode' } := by
  induction flags generalizing o mode with
  | nil => exact ⟨mode, rfl⟩
  | cons flag flags ih =>
    obtain ⟨next, hnext⟩ : ∃ next, ({ o with mode := mode } : BuildOptions).take flag.joined =
        { o.take flag with mode := next } := by
      cases flag with
      | mode name => by_cases hname : name = "" <;> simp [BuildFlag.joined, take, hname]
      | _ => exact ⟨mode, rfl⟩
    obtain ⟨mode', hmode'⟩ := ih (o.take flag) next
    refine ⟨mode', ?_⟩
    rw [List.map_cons, takeAll, List.foldl_cons, hnext]
    exact hmode'

end BuildOptions

namespace CommandLine

open BuildOptions (parse merge)

variable {arg : String} {args : List String}

/-- The flags that the arguments after the project stand for. -/
def flags : List String → List BuildFlag
  | [] => []
  | [arg] => [.ofArgument arg]
  | arg :: next :: rest =>
    if arg = "-m" then .mode next :: flags rest else .ofArgument arg :: flags (next :: rest)

theorem merge_parse_singleton (o : BuildOptions) (arg : String) :
    o.merge (parse [arg]) = o.take (.ofArgument arg) := by
  rw [o.take_eq_merge]
  rfl

theorem readOptions_eq_takeAll (o : BuildOptions) (args : List String) :
    readOptions o args = o.takeAll (flags args) := by
  fun_induction readOptions o args with
  | case1 => rfl
  | case2 o arg => exact merge_parse_singleton o arg
  | case3 o next rest ih =>
    rw [ih, flags, if_pos rfl]
    rfl
  | case4 o arg next rest harg ih =>
    rw [ih, flags, if_neg harg, merge_parse_singleton]
    rfl

theorem flags_cons (harg : arg ≠ "-m") (rest : List String) :
    flags (arg :: rest) = .ofArgument arg :: flags rest := by
  cases rest with
  | nil => rfl
  | cons next rest => rw [flags, if_neg harg]

/-- Without a mode given as two arguments, every argument stands for itself. A `-m` that has nothing
after it is one of these. -/
theorem flags_of_no_pair (h : "-m" ∉ args.dropLast) : flags args = args.map .ofArgument := by
  induction args with
  | nil => rfl
  | cons arg rest ih =>
    cases rest with
    | nil => rfl
    | cons next rest =>
      rw [List.dropLast_cons_cons, List.mem_cons, not_or] at h
      rw [flags_cons (Ne.symm h.1), ih h.2]
      rfl

/-- Options may be read from arguments in groups, however these are cut, or one at a time. Laying
options over others is associative, the options that set nothing are neutral, and applying options
laid over others is applying one after the other. -/
theorem options_compose :
    (∀ groups : List (List String),
      (groups.map parse).foldl merge .default = parse groups.flatten) ∧
    (∀ args : List String, "-m" ∉ args.dropLast → readOptions .default args = parse args) ∧
    (∀ o p q : BuildOptions, (o.merge p).merge q = o.merge (p.merge q)) ∧
    (∀ o : BuildOptions, BuildOptions.default.merge o = o ∧ o.merge .default = o) ∧
    (∀ (o p : BuildOptions) (c : Config), (o.merge p).apply c = p.apply (o.apply c)) := by
  refine ⟨fun groups => ?_, fun args hargs => ?_, BuildOptions.merge_assoc,
    fun o => ⟨o.default_merge, o.merge_default⟩, BuildOptions.apply_merge⟩
  · rw [BuildOptions.foldl_merge_parse, BuildOptions.default_merge]
  · rw [readOptions_eq_takeAll, flags_of_no_pair hargs, BuildOptions.parse_eq_takeAll]

/-- Arguments that override one another, say nothing or are unknown, and a `-m` at the end. -/
def mixedArguments : List String :=
  ["--mode=Profile", "--binaries=", "-v", "--mode=", "--jobs=4", "--debug", "-m"]

theorem options_compose_mixed :
    "-m" ∉ mixedArguments.dropLast ∧
    readOptions .default mixedArguments = parse mixedArguments ∧
    parse mixedArguments = ⟨some "Debug", none, some Path.empty, true⟩ ∧
    ([mixedArguments.take 2, [], mixedArguments.drop 2].map parse).foldl merge .default =
      parse mixedArguments := by
  refine ⟨by decide, options_compose.2.1 _ (by decide), by decide, ?_⟩
  rw [options_compose.1]
  rfl

/-- The arguments with every mode that is given as two of them given as one. -/
def respell : List String → List String
  | [] => []
  | [arg] => [arg]
  | arg :: next :: rest =>
    if arg = "-m" then ("--mode=" ++ next) :: respell rest else arg :: respell (next :: rest)

theorem flags_respell (args : List String) : flags (respell args) = (flags args).map .joined := by
  fun_induction respell args with
  | case1 => rfl
  | case2 arg => simp [flags, BuildFlag.joined_ofArgument]
  | case3 next rest ih =>
    have hmode : "--mode=" ++ next ≠ "-m" := by
      intro heq
      have hchars := congrArg String.toList heq
      rw [String.toList_append] at hchars
      simp at hchars
    rw [flags_cons hmode, ih, BuildFlag.ofArgument_mode, flags, if_pos rfl, List.map_cons]
  | case4 arg next rest harg ih =>
    rw [flags_cons harg, ih, flags_cons harg, List.map_cons, BuildFlag.joined_ofArgument]

/-- The modes that arguments set, in order. -/
def modes (args : List String) : List String := (flags args).filterMap BuildFlag.mode?

theorem modes_respell (args : List String) :
    modes (respell args) = (modes args).filter (· ≠ "") := by
  rw [modes, modes, flags_respell, List.filterMap_map, List.filter_filterMap]
  exact List.filterMap_congr fun flag _ => flag.mode?_joined

theorem mode_readOptions (args : List String) :
    (readOptions .default args).mode = (modes args).getLast? := by
  rw [readOptions_eq_takeAll, BuildOptions.mode_takeAll, modes]
  exact Option.or_none

/-- A mode may be given as one argument or as two, but an empty one counts only as two: then it
hides the modes before it, while as one argument it leaves them. The two spellings come to the same
options exactly if the last mode is not empty, and never differ in anything but the mode. -/
theorem spellings_agree_iff (args : List String) :
    (readOptions .default (respell args) = readOptions .default args ↔
      (modes args).getLast? ≠ some "") ∧
    (readOptions .default args).mode = (modes args).getLast? ∧
    (readOptions .default (respell args)).mode = ((modes args).filter (· ≠ "")).getLast? ∧
    ∃ mode, readOptions .default (respell args) =
      { readOptions .default args with mode := mode } := by
  have hmode := mode_readOptions args
  have hrespelled : (readOptions .default (respell args)).mode =
      ((modes args).filter (· ≠ "")).getLast? := by
    rw [mode_readOptions, modes_respell]
  obtain ⟨mode, hothers⟩ : ∃ mode, readOptions .default (respell args) =
      { readOptions .default args with mode := mode } := by
    rw [readOptions_eq_takeAll, readOptions_eq_takeAll, flags_respell]
    exact BuildOptions.takeAll_joined .default (flags args) none
  refine ⟨⟨fun hsame hempty => ?_, fun hlast => ?_⟩, hmode, hrespelled, mode, hothers⟩
  · -- No mode is left that is empty.
    rw [hsame, hmode, hempty] at hrespelled
    simpa using List.mem_of_getLast? hrespelled.symm
  · have hkept : ((modes args).filter (· ≠ "")).getLast? = (modes args).getLast? := by
      rcases List.eq_nil_or_concat' (modes args) with hnil | ⟨init, last, hconcat⟩
      · rw [hnil]
        rfl
      · rw [hconcat, List.getLast?_concat] at hlast
        have hlast : last ≠ "" := fun heq => hlast (congrArg some heq)
        rw [hconcat, List.filter_append, List.filter_cons_of_pos (by simpa using hlast),
          List.filter_nil, List.getLast?_concat, List.getLast?_concat]
    have hsame : (readOptions .default args).mode = mode := by
      rw [hmode, ← hkept, ← hrespelled, hothers]
    rw [hothers, ← hsame]

/-- An empty mode given as two arguments is what the build is asked for; given as one it leaves the
default. -/
theorem empty_mode_taken :
    respell ["-m", ""] = ["--mode="] ∧
    ((readOptions .default ["-m", ""]).apply (.ofProject (.ofString "P"))).mode = "" ∧
    ((readOptions .default ["--mode="]).apply (.ofProject (.ofString "P"))).mode =
      defaultBuildMode := by
  decide

end CommandLine

end ModuleCompiler
