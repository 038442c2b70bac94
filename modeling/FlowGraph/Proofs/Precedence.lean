import FlowGraph.Cli.Options

/-! # Which argument wins

    The arguments of a command can be parsed together, or one at a time, each
    into options of its own that are merged into the earlier ones. Both ways
    keep the last file to write to, all answers in order, and every warning.

    They differ in the format. Together, the last format wins. One at a time,
    it wins only if it is not `listing`: options with that format look like
    options without any (`Options.collect_listing_last`).

    Main statement: `Options.collect_eq_parse_iff`.
-/

namespace FlowGraph

namespace Cli

/-! ## The value of an option -/

theorem behind?_eq_some_iff {start text rest : List Char} : behind? start text = some rest ↔ text = start ++ rest := by
  induction start generalizing text with
  | nil => simp [behind?, eq_comm]
  | cons c start ih =>
    cases text with
    | nil => simp [behind?]
    | cons d text =>
      simp only [behind?, List.cons_append, List.cons.injEq]
      split
      · next heq => rw [ih, and_iff_right heq.symm]
      · next hne =>
        simp only [reduceCtorEq, false_iff, not_and]
        exact fun heq => absurd heq.symm hne

theorem valueOf?_eq_some_iff {start arg value : String} : valueOf? start arg = some value ↔ arg = start ++ value := by
  rw [valueOf?, Option.map_eq_some_iff]
  constructor
  · rintro ⟨rest, hrest, rfl⟩
    rw [behind?_eq_some_iff] at hrest
    rw [← String.toList_inj, String.toList_append, hrest, String.toList_ofList]
  · rintro rfl
    exact ⟨value.toList, behind?_eq_some_iff.mpr String.toList_append, String.ofList_toList⟩

namespace Options

/-! ## What one argument says -/

def format? (arg : String) : Option Format := (valueOf? "--emit=" arg).bind Format.ofName?

def output? (arg : String) : Option String := (valueOf? "-o=" arg).or (valueOf? "--output=" arg)

def answer? (arg : String) : Option Answer := (valueOf? "--answer=" arg).bind Answer.ofText?

def isVerbose (arg : String) : Bool := arg = "--verbose" ∨ arg = "-v"

/-- The warnings about one argument, whatever came before it. -/
def warnings (arg : String) : List Warning := (({} : Options).add arg).2

/-- Options, after arguments that ask for the formats. -/
def settled (o : Options) (formats : List Format) (args : List String) : Options where
  format := formats.getLast?.getD o.format
  output := (args.filterMap output?).getLast?.or o.output
  answers := o.answers ++ args.filterMap answer?
  verbose := o.verbose || args.any isVerbose

theorem settled_append (o : Options) (formats formats' : List Format) (args args' : List String) :
    o.settled (formats ++ formats') (args ++ args') = (o.settled formats args).settled formats' args' := by
  simp [settled, List.getLast?_append, Option.or_assoc, Bool.or_assoc]

/-- An argument with a value is no other one. -/
theorem isVerbose_append (start : String) (h : ∀ arg ∈ ["--verbose", "-v"], valueOf? start arg = none)
    (value : String) : isVerbose (start ++ value) = false := by
  refine decide_eq_false ?_
  rintro (heq | heq)
  · have hnone := h "--verbose" (by simp)
    rw [valueOf?_eq_some_iff.mpr heq.symm] at hnone
    cases hnone
  · have hnone := h "-v" (by simp)
    rw [valueOf?_eq_some_iff.mpr heq.symm] at hnone
    cases hnone

theorem add_eq (o : Options) (arg : String) : o.add arg = (o.settled (format? arg).toList [arg], warnings arg) := by
  have hsettled : o.settled (format? arg).toList [arg] =
      ⟨(format? arg).getD o.format, (output? arg).or o.output, o.answers ++ (answer? arg).toList,
        o.verbose || isVerbose arg⟩ := by
    cases hf : format? arg <;> cases ho : output? arg <;> cases ha : answer? arg <;> simp [settled, ho, ha]
  rw [hsettled]
  unfold warnings add
  -- the ways to write an option exclude each other
  cases hformat : valueOf? "--emit=" arg with
  | some name =>
    obtain rfl := valueOf?_eq_some_iff.mp hformat
    have houtput : output? ("--emit=" ++ name) = none := by simp [output?, valueOf?, behind?]
    have hanswer : answer? ("--emit=" ++ name) = none := by simp [answer?, valueOf?, behind?]
    have hverbose := isVerbose_append "--emit=" (by decide) name
    cases hname : Format.ofName? name <;> simp [format?, hformat, hname, houtput, hanswer, hverbose]
  | none =>
    cases houtput : (valueOf? "-o=" arg).or (valueOf? "--output=" arg) with
    | some path =>
      have harg : arg = "-o=" ++ path ∨ arg = "--output=" ++ path := by
        rcases Option.or_eq_some_iff.mp houtput with h | ⟨-, h⟩
        · exact .inl (valueOf?_eq_some_iff.mp h)
        · exact .inr (valueOf?_eq_some_iff.mp h)
      have hanswer : answer? arg = none := by rcases harg with rfl | rfl <;> simp [answer?, valueOf?, behind?]
      have hverbose : isVerbose arg = false := by
        rcases harg with rfl | rfl <;> exact isVerbose_append _ (by decide) path
      simp [format?, output?, hformat, houtput, hanswer, hverbose]
    | none =>
      cases hanswer : valueOf? "--answer=" arg with
      | some text =>
        obtain rfl := valueOf?_eq_some_iff.mp hanswer
        have hverbose := isVerbose_append "--answer=" (by decide) text
        cases htext : Answer.ofText? text <;>
          simp [format?, output?, answer?, hformat, houtput, hanswer, htext, hverbose]
      | none =>
        by_cases hverbose : arg = "--verbose" ∨ arg = "-v" <;>
          simp [format?, output?, answer?, isVerbose, hformat, houtput, hanswer, hverbose]

/-! ## Together, and one at a time -/

theorem filterMap_format?_cons (arg : String) (rest : List String) :
    (arg :: rest).filterMap format? = (format? arg).toList ++ rest.filterMap format? := by
  cases hf : format? arg <;> simp [hf]

theorem go_eq (o : Options) (args : List String) :
    parse.go o args = (o.settled (args.filterMap format?) args, args.flatMap warnings) := by
  induction args generalizing o with
  | nil => simp [parse.go, settled]
  | cons arg rest ih =>
    rw [filterMap_format?_cons, ← List.singleton_append, settled_append, List.singleton_append, List.flatMap_cons]
    simp only [parse.go, add_eq, ih]

theorem parse_eq (args : List String) :
    parse args = (({} : Options).settled (args.filterMap format?) args, args.flatMap warnings) :=
  go_eq {} args

/-- Options that are merged say nothing of the format if it is `listing`. -/
theorem merge_settled (o : Options) (f : Option Format) (arg : String) :
    o.merge (({} : Options).settled f.toList [arg]) = o.settled (f.toList.filter (· ≠ .listing)) [arg] := by
  have hformat : (if (f.toList.getLast?.getD .listing) = .listing then o.format else f.toList.getLast?.getD .listing) =
      (f.toList.filter (· ≠ .listing)).getLast?.getD o.format := by
    rcases f with _ | _ | _ | _ <;> rfl
  simp only [merge, settled, hformat, Option.or_none, List.nil_append, Bool.false_or]

/-- An argument that is not followed by a path is parsed on its own. -/
theorem collect_cons (o : Options) {arg : String} (h : arg ≠ "-o") (rest : List String) :
    o.collect (arg :: rest) =
      (((o.merge (parse [arg]).1).collect rest).1, (parse [arg]).2 ++ ((o.merge (parse [arg]).1).collect rest).2) := by
  cases rest with
  | nil => simp [collect]
  | cons next rest => simp [collect, h]

theorem collect_eq (o : Options) {args : List String} (h : "-o" ∉ args) :
    o.collect args =
      (o.settled ((args.filterMap format?).filter (· ≠ .listing)) args, args.flatMap warnings) := by
  induction args generalizing o with
  | nil => simp [collect, settled]
  | cons arg rest ih =>
    obtain ⟨harg, hrest⟩ := List.ne_and_not_mem_of_not_mem_cons h
    have hparse : parse [arg] = (({} : Options).settled (format? arg).toList [arg], warnings arg) := by
      simp [parse, parse.go, add_eq]
    rw [collect_cons o harg.symm, hparse, merge_settled, ih _ hrest, filterMap_format?_cons, List.filter_append,
      ← settled_append, List.singleton_append, List.flatMap_cons]

/-! ## The format -/

/-- The last format other than `listing` is the last one, unless that is
    `listing` and comes behind another. -/
theorem last_format_iff (formats : List Format) :
    (formats.filter (· ≠ .listing)).getLast?.getD .listing = formats.getLast?.getD .listing ↔
      (formats.getLast? = some .listing → ∀ f ∈ formats, f = .listing) := by
  rcases List.eq_nil_or_concat formats with rfl | ⟨front, last, rfl⟩
  · simp
  rw [List.concat_eq_append]
  by_cases hlast : last = .listing
  · subst hlast
    have hnone : (front.filter (· ≠ .listing)).getLast?.getD .listing = .listing ↔
        front.filter (· ≠ .listing) = [] := by
      cases hother : (front.filter (· ≠ .listing)).getLast? with
      | none => simpa using List.getLast?_eq_none_iff.mp hother
      | some f =>
        have hf := List.mem_of_getLast? hother
        have hne : f ≠ .listing := of_decide_eq_true (List.mem_filter.mp hf).2
        simp only [Option.getD_some, hne, false_iff]
        exact List.ne_nil_of_mem hf
    simpa [List.filter_append, List.filter_eq_nil_iff, or_imp, forall_and] using hnone
  · simp [List.filter_append, hlast]

/-- The arguments of a command, none of which is followed by a path. Parsed
    together, the last format wins and the last file, and answers and warnings
    come in order. Parsed one at a time, the last format that is not `listing`
    wins, and all else is the same. So there is no difference unless the last
    format is `listing` and another one came before it. -/
theorem collect_eq_parse_iff (args : List String) (h : "-o" ∉ args) :
    parse args =
      ({ format := (args.filterMap format?).getLast?.getD .listing
         output := (args.filterMap output?).getLast?
         answers := args.filterMap answer?
         verbose := args.any isVerbose }, args.flatMap warnings) ∧
    ({} : Options).collect args =
      ({ (parse args).1 with
         format := ((args.filterMap format?).filter (· ≠ .listing)).getLast?.getD .listing }, (parse args).2) ∧
    (({} : Options).collect args = parse args ↔
      ((args.filterMap format?).getLast? = some .listing → ∀ f ∈ args.filterMap format?, f = .listing)) := by
  have hcollect := collect_eq {} h
  have hparse := parse_eq args
  refine ⟨?_, ?_, ?_⟩
  · simp [hparse, settled]
  · simp [hcollect, hparse, settled]
  · rw [← last_format_iff, hcollect, hparse]
    simp [settled]

/-- Several formats, one of which there is not, and two files. -/
def repeated : List String :=
  ["--emit=bin", "-o=unit.bin", "--emit=text", "--answer=ask=5", "--emit=exe", "--output=unit.json",
    "--emit=json", "-v"]

theorem collect_eq_parse_iff_repeated :
    "-o" ∉ repeated ∧ ({} : Options).collect repeated = parse repeated ∧
    parse repeated = (⟨.json, some "unit.json", [⟨"ask", .integer 5⟩], true⟩, [.unknownFormat "exe"]) := by
  obtain ⟨hparse, -, hiff⟩ := collect_eq_parse_iff repeated (by decide)
  refine ⟨by decide, hiff.mpr (by decide), ?_⟩
  rw [hparse]
  decide +kernel

/-- The format that is asked for last is not the one that is chosen. -/
theorem collect_listing_last :
    "-o" ∉ ["--emit=json", "--emit=listing"] ∧
    (({} : Options).collect ["--emit=json", "--emit=listing"]).1 = { format := .json } ∧
    (parse ["--emit=json", "--emit=listing"]).1 = { format := .listing } := by
  refine ⟨by decide, by decide, by decide⟩

end Options

end Cli

end FlowGraph
