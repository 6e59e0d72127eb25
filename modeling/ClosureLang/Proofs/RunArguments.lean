import ClosureLang.CommandLine.RunArgs
import Mathlib.Data.List.Basic
import Mathlib.Data.List.Induction
import Mathlib.Data.Nat.Digits.Defs

/-!
# What the run command takes

The arguments of the run command have a grammar of their own, which says nothing about reading:
an argument is a depth option, a quiet flag, another option or positional; a list of arguments is
taken if its depths are numbers, it has no other option, and one argument is positional
(`Accepted`). The arguments are read from left to right, with what has been found so far
(`Taken`), and an argument that cannot be taken after those before it decides the error
(`Offends`).

`Taken.step` and `Taken.refuses` are about one argument, and `exists_taken` is about any number of
them: as long as none offends, reading gets to the argument behind.
-/

namespace ClosureLang.CommandLine

/-! ## The grammar -/

def IsDepthOption (arg : String) : Prop := "--max-depth=".toList <+: arg.toList

def IsQuietFlag (arg : String) : Prop := arg = "--quiet" ∨ arg = "-q"

/-- An option that is not known. -/
def IsOtherOption (arg : String) : Prop :=
  "-".toList <+: arg.toList ∧ ¬ IsDepthOption arg ∧ ¬ IsQuietFlag arg

/-- No option, such as the empty text. -/
def IsPositional (arg : String) : Prop := ¬ "-".toList <+: arg.toList

instance : DecidablePred IsDepthOption := fun arg =>
  inferInstanceAs (Decidable ("--max-depth=".toList <+: arg.toList))

instance : DecidablePred IsPositional := fun arg =>
  inferInstanceAs (Decidable (¬ "-".toList <+: arg.toList))

/-- The number that an ASCII digit stands for. -/
def digitValue (c : Char) : Nat := c.toNat - '0'.toNat

/-- **How a depth is written**: an optional plus sign, and ASCII digits, at least one. It is less
than `2 ^ 64`. -/
def WritesDepth (value : String) (n : Nat) : Prop :=
  ∃ digits : List Char, (value.toList = digits ∨ value.toList = '+' :: digits) ∧
    digits ≠ [] ∧ (∀ c ∈ digits, '0' ≤ c ∧ c ≤ '9') ∧
    n = Nat.ofDigits 10 (digits.reverse.map digitValue) ∧ n < Nat.pow 2 64

/-- The depth that the last depth option gives. -/
def ChosenDepth (args : List String) (n : Nat) : Prop :=
  match (args.filter (IsDepthOption ·)).getLast? with
  | some arg => ∃ value, arg = "--max-depth=" ++ value ∧ WritesDepth value n
  | none => n = 1024

/-- **The lists of arguments that are taken.** -/
structure Accepted (args : List String) : Prop where
  depths : ∀ value, "--max-depth=" ++ value ∈ args → ∃ n, WritesDepth value n
  known : ∀ arg ∈ args, ¬ IsOtherOption arg
  one : ∃ name, args.filter (IsPositional ·) = [name]

/-- **Why an argument cannot be taken** after those before it, in the words of the error. -/
inductive Offends (before : List String) : String → String → Prop
  | depth {value : String} (h : ¬ ∃ n, WritesDepth value n) :
      Offends before ("--max-depth=" ++ value) ("invalid --max-depth value `" ++ value ++ "`")
  | unknown {arg : String} (h : IsOtherOption arg) :
      Offends before arg ("unknown option `" ++ arg ++ "`")
  | extra {arg : String} (h : IsPositional arg) (hb : ∃ other ∈ before, IsPositional other) :
      Offends before arg ("unexpected argument `" ++ arg ++ "`")

def NoneOffends (args : List String) : Prop :=
  ∀ before arg after text, args = before ++ arg :: after → ¬ Offends before arg text

/-- What is wrong with the first argument that offends. -/
def FirstOffence (args : List String) (text : String) : Prop :=
  ∃ before arg after, args = before ++ arg :: after ∧ NoneOffends before ∧ Offends before arg text

/-! ## Numbers -/

theorem digitsValue_eq (digits : List Char) (seen : Nat) : digitsValue seen digits =
    (digits.map digitValue).foldl (fun n d => d + 10 * n) seen := by
  induction digits generalizing seen with
  | nil => rfl
  | cons c digits ih =>
    have hseen : seen * 10 + digitValue c = digitValue c + 10 * seen := by omega
    rw [List.map_cons, List.foldl_cons, ← hseen]
    exact ih _

theorem digitsValue_eq_ofDigits (digits : List Char) :
    digitsValue 0 digits = Nat.ofDigits 10 (digits.reverse.map digitValue) := by
  rw [digitsValue_eq, List.map_reverse, Nat.ofDigits_eq_foldr, List.foldr_reverse]
  rfl

theorem isDigit_iff {c : Char} : c.isDigit = true ↔ '0' ≤ c ∧ c ≤ '9' := by
  simp [Char.isDigit, Char.le_def]

/-- Digits behind a plus sign, or without one. -/
theorem eq_or_eq_plus (text : List Char) {digits : List Char}
    (h : (['+'].isPrefixOf? text).getD text = digits) : text = digits ∨ text = '+' :: digits := by
  cases hplus : ['+'].isPrefixOf? text with
  | none =>
    rw [hplus] at h
    exact .inl h
  | some rest =>
    rw [hplus] at h
    obtain rfl : rest = digits := h
    exact .inr (List.isPrefixOf?_eq_some_iff_append_eq.mp hplus).symm

/-- A plus sign is no digit. -/
theorem getD_plus {text digits : List Char} (h : text = digits ∨ text = '+' :: digits)
    (hdigits : ∀ c ∈ digits, '0' ≤ c ∧ c ≤ '9') : (['+'].isPrefixOf? text).getD text = digits := by
  rcases h with rfl | rfl
  · cases hplus : ['+'].isPrefixOf? text with
    | none => rfl
    | some rest =>
      obtain rfl := List.isPrefixOf?_eq_some_iff_append_eq.mp hplus
      exact absurd (hdigits '+' List.mem_cons_self) (by decide)
  · rfl

theorem readDepth?_eq {text digits : List Char} (n : Nat)
    (h : (['+'].isPrefixOf? text).getD text = digits) :
    readDepth? text = some n ↔ digits ≠ [] ∧ (∀ c ∈ digits, '0' ≤ c ∧ c ≤ '9') ∧
      n = Nat.ofDigits 10 (digits.reverse.map digitValue) ∧ n < Nat.pow 2 64 := by
  have hall : digits.all Char.isDigit = true ↔ ∀ c ∈ digits, '0' ≤ c ∧ c ≤ '9' := by
    simp only [List.all_eq_true, isDigit_iff]
  have hguard : (digits.isEmpty || !digits.all Char.isDigit) = true ↔
      ¬ (digits ≠ [] ∧ digits.all Char.isDigit = true) := by
    rw [Bool.or_eq_true, List.isEmpty_iff, Bool.not_eq_true', ← Bool.not_eq_true]
    tauto
  rw [← hall, ← digitsValue_eq_ofDigits, ← and_assoc]
  unfold readDepth?
  rw [h]
  by_cases hok : digits ≠ [] ∧ digits.all Char.isDigit = true
  · rw [if_neg (fun hg => hguard.mp hg hok)]
    by_cases hlt : digitsValue 0 digits < depthBound
    · rw [if_pos hlt, Option.some_inj]
      exact ⟨fun hn => ⟨hok, hn.symm, hn ▸ hlt⟩, fun hn => hn.2.1.symm⟩
    · rw [if_neg hlt]
      refine iff_of_false (by simp) ?_
      rintro ⟨-, rfl, hn⟩
      exact hlt hn
  · rw [if_pos (hguard.mpr hok)]
    exact iff_of_false (by simp) fun hn => hok hn.1

/-- **A depth is read where one is written.** -/
theorem readDepth?_eq_some_iff {value : String} {n : Nat} :
    readDepth? value.toList = some n ↔ WritesDepth value n := by
  constructor
  · intro h
    obtain ⟨hne, hdigits, hn⟩ := (readDepth?_eq n rfl).mp h
    exact ⟨_, eq_or_eq_plus _ rfl, hne, hdigits, hn⟩
  · rintro ⟨digits, hvalue, hne, hdigits, hn⟩
    exact (readDepth?_eq n (getD_plus hvalue hdigits)).mpr ⟨hne, hdigits, hn⟩

/-! ## Sorts of argument -/

theorem hyphen_prefix_iff {arg : String} :
    "-".toList <+: arg.toList ↔ arg.toList.head? = some '-' := by
  rw [List.head?_eq_some_iff]
  exact exists_congr fun _ => eq_comm

theorem isDepthOption_iff {arg : String} :
    IsDepthOption arg ↔ ∃ value, arg = "--max-depth=" ++ value := by
  constructor
  · rintro ⟨value, hvalue⟩
    refine ⟨String.ofList value, ?_⟩
    rw [← String.toList_inj, String.toList_append, String.toList_ofList (l := value), hvalue]
  · rintro ⟨value, rfl⟩
    exact ⟨value.toList, String.toList_append.symm⟩

theorem IsDepthOption.not_isPositional {arg : String} (h : IsDepthOption arg) :
    ¬ IsPositional arg :=
  not_not_intro (List.IsPrefix.trans (by decide) h)

theorem IsQuietFlag.not_isPositional {arg : String} (h : IsQuietFlag arg) :
    ¬ IsPositional arg := by
  rcases h with rfl | rfl <;> decide

theorem IsQuietFlag.not_isDepthOption {arg : String} (h : IsQuietFlag arg) :
    ¬ IsDepthOption arg := by
  rcases h with rfl | rfl <;> decide

/-- What an argument is taken for. -/
inductive SortedAs (arg : String) : RunArg → Prop
  | depth (value : String) (h : arg = "--max-depth=" ++ value) : SortedAs arg (.depth value.toList)
  | quiet (h : IsQuietFlag arg) : SortedAs arg .quiet
  | otherOption (h : IsOtherOption arg) : SortedAs arg .otherOption
  | positional (h : IsPositional arg) : SortedAs arg .positional

/-- **Arguments are sorted as the grammar has it.** -/
theorem sortedAs_ofString (arg : String) : SortedAs arg (RunArg.ofString arg) := by
  unfold RunArg.ofString
  split
  · rename_i value hvalue
    rw [← String.toList_ofList (l := value)]
    refine .depth _ ?_
    rw [← String.toList_inj, String.toList_append, String.toList_ofList (l := value)]
    exact (List.isPrefixOf?_eq_some_iff_append_eq.mp hvalue).symm
  · rename_i hnone
    have hdepth : ¬ IsDepthOption arg := by
      rintro ⟨value, hvalue⟩
      rw [List.isPrefixOf?_eq_some_iff_append_eq.mpr hvalue] at hnone
      cases hnone
    split
    · rename_i hquiet
      exact .quiet (by simpa [IsQuietFlag] using hquiet)
    · rename_i hquiet
      have hquiet : ¬ IsQuietFlag arg := by simpa [IsQuietFlag] using hquiet
      split
      · rename_i hhead
        exact .otherOption ⟨hyphen_prefix_iff.mpr (by simpa using hhead), hdepth, hquiet⟩
      · rename_i hhead
        exact .positional fun hprefix => hhead (by simpa using hyphen_prefix_iff.mp hprefix)

/-! ## One argument -/

/-- **What has been found** in the arguments read so far. -/
structure Taken (before : List String) (demo : Option String) (o : RunOptions) : Prop where
  positional : before.filter (IsPositional ·) = demo.toList
  quiet : o.quiet = true ↔ ∃ arg ∈ before, IsQuietFlag arg
  depth : ChosenDepth before o.maxDepth

variable {before args : List String} {arg text : String} {demo : Option String} {o : RunOptions}

theorem taken_nil : Taken [] none .default :=
  ⟨rfl, by simp [RunOptions.default], rfl⟩

theorem ChosenDepth.concat {n : Nat} (h : ChosenDepth before n) (harg : ¬ IsDepthOption arg) :
    ChosenDepth (before ++ [arg]) n := by
  unfold ChosenDepth at h ⊢
  simpa [harg] using h

theorem chosenDepth_last {value : String} {n : Nat} (h : WritesDepth value n) :
    ChosenDepth (before ++ ["--max-depth=" ++ value]) n := by
  have hdepth : IsDepthOption ("--max-depth=" ++ value) := isDepthOption_iff.mpr ⟨value, rfl⟩
  unfold ChosenDepth
  rw [List.filter_append, List.filter_singleton, decide_eq_true hdepth]
  simp only [cond_true, List.getLast?_concat]
  exact ⟨value, rfl, h⟩

namespace Taken

/-- The name found is the one positional argument. -/
theorem mem_iff (h : Taken before demo o) : arg ∈ before ∧ IsPositional arg ↔ demo = some arg := by
  have hmem : arg ∈ before.filter (IsPositional ·) ↔ arg ∈ before ∧ IsPositional arg := by
    simp [List.mem_filter]
  rw [← hmem, h.positional, Option.mem_toList]

/-- **An argument that does not offend is taken.** -/
theorem step (h : Taken before demo o) (hno : ∀ text, ¬ Offends before arg text) :
    ∃ demo' o', Taken (before ++ [arg]) demo' o' ∧
      ∀ rest, readRunArgs demo o (arg :: rest) = readRunArgs demo' o' rest := by
  have hsort := sortedAs_ofString arg
  generalize hs : RunArg.ofString arg = sort at hsort
  cases hsort with
  | depth value harg =>
    have hdepth : IsDepthOption arg := isDepthOption_iff.mpr ⟨value, harg⟩
    have hquiet : ¬ IsQuietFlag arg := fun hq => hq.not_isDepthOption hdepth
    obtain ⟨n, hn⟩ : ∃ n, WritesDepth value n := by
      by_contra hv
      exact hno _ (harg ▸ Offends.depth hv)
    refine ⟨demo, { o with maxDepth := n }, ⟨?_, ?_, harg ▸ chosenDepth_last hn⟩, fun rest => ?_⟩
    · simpa [hdepth.not_isPositional] using h.positional
    · simpa [or_and_right, exists_or, hquiet] using h.quiet
    · simp only [readRunArgs, hs, readDepth?_eq_some_iff.mpr hn]
  | quiet hquiet =>
    refine ⟨demo, { o with quiet := true }, ⟨?_, ?_, h.depth.concat hquiet.not_isDepthOption⟩,
      fun rest => ?_⟩
    · simpa [hquiet.not_isPositional] using h.positional
    · exact iff_of_true rfl ⟨arg, List.mem_concat_self, hquiet⟩
    · simp only [readRunArgs, hs]
  | otherOption hother => exact absurd (.unknown hother) (hno _)
  | positional hpos =>
    have hdepth : ¬ IsDepthOption arg := fun hd => hd.not_isPositional hpos
    have hquiet : ¬ IsQuietFlag arg := fun hq => hq.not_isPositional hpos
    have hfirst : demo = none := by
      cases hdemo : demo with
      | none => rfl
      | some name => exact absurd (.extra hpos ⟨name, h.mem_iff.mpr hdemo⟩) (hno _)
    subst hfirst
    refine ⟨some arg, o, ⟨?_, ?_, h.depth.concat hdepth⟩, fun rest => ?_⟩
    · simpa [hpos] using h.positional
    · simpa [or_and_right, exists_or, hquiet] using h.quiet
    · simp only [readRunArgs, hs]

/-- **One that offends ends the reading**, whatever stands behind it. -/
theorem refuses (h : Taken before demo o) (hoff : Offends before arg text) :
    ∃ e : ArgError, e.message = text ∧ ∀ rest, readRunArgs demo o (arg :: rest) = .error e := by
  have hsort := sortedAs_ofString arg
  generalize hs : RunArg.ofString arg = sort at hsort
  cases hoff with
  | @depth value hv =>
    have hdepth : IsDepthOption ("--max-depth=" ++ value) := isDepthOption_iff.mpr ⟨value, rfl⟩
    cases hsort with
    | depth value' harg =>
      obtain rfl : value = value' := (String.append_right_inj _).mp harg
      have hread : readDepth? value.toList = none := by
        rw [Option.eq_none_iff_forall_ne_some]
        exact fun n hn => hv ⟨n, readDepth?_eq_some_iff.mp hn⟩
      refine ⟨.invalidDepth (String.ofList value.toList), ?_, fun rest => ?_⟩
      · rw [String.ofList_toList]
        rfl
      · simp only [readRunArgs, hs, hread]
    | quiet hq => exact absurd hdepth hq.not_isDepthOption
    | otherOption ho => exact absurd hdepth ho.2.1
    | positional hp => exact absurd hp hdepth.not_isPositional
  | unknown ho =>
    cases hsort with
    | depth value harg => exact absurd (isDepthOption_iff.mpr ⟨value, harg⟩) ho.2.1
    | quiet hq => exact absurd hq ho.2.2
    | otherOption _ => exact ⟨.unknownOption arg, rfl, fun rest => by simp only [readRunArgs, hs]⟩
    | positional hp => exact absurd ho.1 hp
  | extra hpos hbefore =>
    cases hsort with
    | depth value harg =>
      exact absurd hpos (isDepthOption_iff.mpr ⟨value, harg⟩).not_isPositional
    | quiet hq => exact absurd hpos hq.not_isPositional
    | otherOption ho => exact absurd ho.1 hpos
    | positional _ =>
      obtain ⟨other, hother⟩ := hbefore
      obtain rfl := h.mem_iff.mp hother
      exact ⟨.unexpectedArgument arg, rfl, fun rest => by simp only [readRunArgs, hs]⟩

end Taken

/-! ## All arguments -/

theorem noneOffends_concat : NoneOffends (before ++ [arg]) ↔
    NoneOffends before ∧ ∀ text, ¬ Offends before arg text := by
  constructor
  · intro h
    refine ⟨fun b a after text hb => h b a (after ++ [arg]) text ?_,
      fun text => h before arg [] text rfl⟩
    rw [hb, List.append_assoc, List.cons_append]
  · rintro ⟨hbefore, harg⟩ b a after text hsplit
    rcases List.eq_nil_or_concat after with rfl | ⟨after, last, rfl⟩
    · obtain ⟨rfl, hlast⟩ := List.append_inj' hsplit rfl
      obtain rfl : arg = a := by simpa using hlast
      exact harg text
    · rw [List.concat_eq_append, ← List.cons_append, ← List.append_assoc] at hsplit
      exact hbefore b a after text (List.append_inj' hsplit rfl).1

/-- **As long as none offends**, reading gets to what stands behind. -/
theorem exists_taken (h : NoneOffends before) : ∃ demo o, Taken before demo o ∧
    ∀ rest, parseRunArgs (before ++ rest) = readRunArgs demo o rest := by
  induction before using List.reverseRecOn with
  | nil => exact ⟨none, .default, taken_nil, fun _ => rfl⟩
  | append_singleton before arg ih =>
    obtain ⟨hbefore, harg⟩ := noneOffends_concat.mp h
    obtain ⟨demo, o, htaken, hread⟩ := ih hbefore
    obtain ⟨demo', o', htaken', hread'⟩ := htaken.step harg
    refine ⟨demo', o', htaken', fun rest => ?_⟩
    rw [List.append_assoc, hread, List.singleton_append, hread']

/-- Either none offends or there is a first one that does. -/
theorem noneOffends_or_firstOffence (args : List String) :
    NoneOffends args ∨ ∃ text, FirstOffence args text := by
  induction args using List.reverseRecOn with
  | nil =>
    refine .inl fun before arg after text h => ?_
    simp at h
  | append_singleton args arg ih =>
    rcases ih with hnone | ⟨text, before, a, after, rfl, hbefore, hoff⟩
    · by_cases harg : ∃ text, Offends args arg text
      · obtain ⟨text, hoff⟩ := harg
        exact .inr ⟨text, args, arg, [], rfl, hnone, hoff⟩
      · exact .inl (noneOffends_concat.mpr ⟨hnone, fun text hoff => harg ⟨text, hoff⟩⟩)
    · refine .inr ⟨text, before, a, after ++ [arg], ?_, hbefore, hoff⟩
      rw [List.append_assoc, List.cons_append]

theorem FirstOffence.refused (h : FirstOffence args text) :
    ∃ e : ArgError, e.message = text ∧ parseRunArgs args = .error e := by
  obtain ⟨before, arg, after, rfl, hbefore, hoff⟩ := h
  obtain ⟨demo, o, htaken, hread⟩ := exists_taken hbefore
  obtain ⟨e, hmessage, he⟩ := htaken.refuses hoff
  exact ⟨e, hmessage, (hread _).trans (he after)⟩

theorem accepted_iff : Accepted args ↔
    NoneOffends args ∧ ∃ name, args.filter (IsPositional ·) = [name] := by
  constructor
  · intro h
    refine ⟨fun before arg after text hsplit hoff => ?_, h.one⟩
    subst hsplit
    cases hoff with
    | @depth value hv => exact hv (h.depths value (by simp))
    | unknown ho => exact h.known arg (by simp) ho
    | extra hpos hbefore =>
      obtain ⟨other, hmem, hother⟩ := hbefore
      obtain ⟨name, hone⟩ := h.one
      have hfound : other ∈ before.filter (IsPositional ·) :=
        List.mem_filter.mpr ⟨hmem, decide_eq_true hother⟩
      have hlength := congrArg List.length hone
      have hpositive := List.length_pos_of_mem hfound
      rw [List.filter_append, List.filter_cons_of_pos (by simpa using hpos), List.length_append,
        List.length_cons, List.length_singleton] at hlength
      omega
  · rintro ⟨hnone, hone⟩
    refine ⟨fun value hmem => ?_, fun arg hmem ho => ?_, hone⟩
    · obtain ⟨before, after, hsplit⟩ := List.append_of_mem hmem
      by_contra hv
      exact hnone _ _ _ _ hsplit (.depth hv)
    · obtain ⟨before, after, hsplit⟩ := List.append_of_mem hmem
      exact hnone _ _ _ _ hsplit (.unknown ho)

/-! ## What comes of the arguments -/

theorem WritesDepth.unique {value : String} {m n : Nat} (hm : WritesDepth value m)
    (hn : WritesDepth value n) : m = n :=
  Option.some_inj.mp
    ((readDepth?_eq_some_iff.mpr hm).symm.trans (readDepth?_eq_some_iff.mpr hn))

theorem ChosenDepth.unique {m n : Nat} (hm : ChosenDepth args m) (hn : ChosenDepth args n) :
    m = n := by
  unfold ChosenDepth at hm hn
  split at hm
  · rename_i arg hlast
    simp only [hlast] at hn
    obtain ⟨value, rfl, hm⟩ := hm
    obtain ⟨value', harg, hn⟩ := hn
    obtain rfl : value = value' := (String.append_right_inj _).mp harg
    exact hm.unique hn
  · rename_i hlast
    simp only [hlast] at hn
    rw [hm, hn]

/-- **The arguments alone say what is found in them.** -/
theorem Taken.unique {demo' : Option String} {o' : RunOptions} (h : Taken args demo o)
    (h' : Taken args demo' o') : demo = demo' ∧ o = o' := by
  obtain ⟨maxDepth, quiet⟩ := o
  obtain ⟨maxDepth', quiet'⟩ := o'
  have hdemo : demo = demo' := Option.ext fun name => h.mem_iff.symm.trans h'.mem_iff
  have hdepth : maxDepth = maxDepth' := h.depth.unique h'.depth
  have hquiet : quiet = quiet' := Bool.eq_iff_iff.mpr (h.quiet.trans h'.quiet.symm)
  exact ⟨hdemo, by rw [hdepth, hquiet]⟩

/-- Where none offends, only the name may be missing. -/
theorem parsed_of_noneOffends (h : NoneOffends args) : ∃ demo o, Taken args demo o ∧
    parseRunArgs args =
      match demo with
      | some name => .ok (name, o)
      | none => .error .missingDemo := by
  obtain ⟨demo, o, htaken, hread⟩ := exists_taken h
  refine ⟨demo, o, htaken, ?_⟩
  have hend := hread []
  rw [List.append_nil] at hend
  rw [hend]
  cases demo <;> rfl

theorem parsed_ok_iff {name : String} :
    parseRunArgs args = .ok (name, o) ↔ Accepted args ∧ Taken args (some name) o := by
  constructor
  · intro hok
    rcases noneOffends_or_firstOffence args with hnone | ⟨text, hfirst⟩
    · obtain ⟨demo, o', htaken, hparsed⟩ := parsed_of_noneOffends hnone
      rw [hok] at hparsed
      cases demo with
      | none => cases hparsed
      | some name' =>
        obtain ⟨rfl, rfl⟩ := Prod.mk.inj (Except.ok.inj hparsed)
        exact ⟨accepted_iff.mpr ⟨hnone, name, htaken.positional⟩, htaken⟩
    · obtain ⟨e, -, he⟩ := hfirst.refused
      cases hok.symm.trans he
  · rintro ⟨haccepted, htaken⟩
    obtain ⟨demo, o', htaken', hparsed⟩ := parsed_of_noneOffends (accepted_iff.mp haccepted).1
    obtain ⟨rfl, rfl⟩ := htaken.unique htaken'
    exact hparsed

theorem Accepted.perm {args' : List String} (h : Accepted args) (hperm : args.Perm args') :
    Accepted args' where
  depths value hmem := h.depths value (hperm.mem_iff.mpr hmem)
  known arg hmem := h.known arg (hperm.mem_iff.mpr hmem)
  one := by
    obtain ⟨name, hone⟩ := h.one
    exact ⟨name, List.perm_singleton.mp (hone ▸ (hperm.filter _).symm)⟩

theorem Taken.perm {args' : List String} {name : String} (h : Taken args (some name) o)
    (hperm : args.Perm args')
    (hdepths : args.filter (IsDepthOption ·) = args'.filter (IsDepthOption ·)) :
    Taken args' (some name) o where
  positional := by
    have hfilter := hperm.filter (IsPositional ·)
    rw [h.positional] at hfilter
    exact List.perm_singleton.mp hfilter.symm
  quiet := h.quiet.trans (exists_congr fun _ => and_congr_left fun _ => hperm.mem_iff)
  depth := by
    have hdepth := h.depth
    rwa [ChosenDepth, hdepths] at hdepth

/-- **The run command takes what its grammar accepts.** Then the name is the one positional
argument, output is dropped if a quiet flag occurs, and the depth is that of the last depth option;
so another order of the arguments makes no difference as long as the depth options keep theirs.
What is not accepted has the error of its first argument that offends, and a missing name is
reported where none does. -/
theorem run_arguments (args : List String) :
    ((∃ r, parseRunArgs args = .ok r) ↔ Accepted args) ∧
    (∀ name o, parseRunArgs args = .ok (name, o) → args.filter (IsPositional ·) = [name] ∧
      (o.quiet = true ↔ ∃ arg ∈ args, IsQuietFlag arg) ∧ ChosenDepth args o.maxDepth) ∧
    (∀ args', args.Perm args' →
      args.filter (IsDepthOption ·) = args'.filter (IsDepthOption ·) →
      ∀ r, parseRunArgs args = .ok r → parseRunArgs args' = .ok r) ∧
    ∀ text, (∃ e, parseRunArgs args = .error e ∧ e.message = text) ↔ FirstOffence args text ∨
      NoneOffends args ∧ (∀ arg ∈ args, ¬ IsPositional arg) ∧ text = "missing demo name" := by
  refine ⟨⟨?_, fun h => ?_⟩, ?_, ?_, fun text => ⟨?_, ?_⟩⟩
  · rintro ⟨⟨name, o⟩, hok⟩
    exact (parsed_ok_iff.mp hok).1
  · obtain ⟨hnone, name, hone⟩ := accepted_iff.mp h
    obtain ⟨demo, o, htaken, hparsed⟩ := parsed_of_noneOffends hnone
    have hname : name ∈ args.filter (IsPositional ·) := by simp [hone]
    obtain rfl := htaken.mem_iff.mp (by simpa using hname)
    exact ⟨(name, o), hparsed⟩
  · intro name o hok
    have htaken := (parsed_ok_iff.mp hok).2
    exact ⟨htaken.positional, htaken.quiet, htaken.depth⟩
  · rintro args' hperm hdepths ⟨name, o⟩ hok
    obtain ⟨haccepted, htaken⟩ := parsed_ok_iff.mp hok
    exact parsed_ok_iff.mpr ⟨haccepted.perm hperm, htaken.perm hperm hdepths⟩
  · rintro ⟨e, he, rfl⟩
    rcases noneOffends_or_firstOffence args with hnone | ⟨text, hfirst⟩
    · obtain ⟨demo, o, htaken, hparsed⟩ := parsed_of_noneOffends hnone
      rw [he] at hparsed
      cases demo with
      | some name => cases hparsed
      | none =>
        obtain rfl := Except.error.inj hparsed
        refine .inr ⟨hnone, fun arg hmem hpos => ?_, rfl⟩
        cases htaken.mem_iff.mp ⟨hmem, hpos⟩
    · obtain ⟨e', rfl, he'⟩ := hfirst.refused
      obtain rfl := Except.error.inj (he.symm.trans he')
      exact .inl hfirst
  · rintro (hfirst | ⟨hnone, hpos, rfl⟩)
    · obtain ⟨e, hmessage, he⟩ := hfirst.refused
      exact ⟨e, he, hmessage⟩
    · obtain ⟨demo, o, htaken, hparsed⟩ := parsed_of_noneOffends hnone
      cases demo with
      | none => exact ⟨_, hparsed, rfl⟩
      | some name =>
        obtain ⟨hmem, hname⟩ := htaken.mem_iff.mpr rfl
        exact absurd hname (hpos name hmem)

/-- The last depth wins wherever the other arguments stand. -/
theorem run_arguments_twoDepths :
    let args := ["--max-depth=+5", "-q", "shared", "--max-depth=007"]
    let args' := ["shared", "--max-depth=+5", "--max-depth=007", "-q"]
    args.Perm args' ∧ parseRunArgs args = .ok ("shared", ⟨7, true⟩) ∧
      parseRunArgs args' = .ok ("shared", ⟨7, true⟩) := by
  intro args args'
  have hperm : args.Perm args' := by decide
  have hok : parseRunArgs args = .ok ("shared", ⟨7, true⟩) := by rfl
  exact ⟨hperm, hok, (run_arguments args).2.2.1 args' hperm (by decide) _ hok⟩

/-- A depth of `2 ^ 64` comes before the second name. -/
example : parseRunArgs ["shared", "--max-depth=18446744073709551616", "counter"] =
    .error (.invalidDepth "18446744073709551616") := by rfl

end ClosureLang.CommandLine
