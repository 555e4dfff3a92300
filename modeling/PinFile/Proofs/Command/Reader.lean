import PinFile.Command.Reader
import PinFile.Proofs.Results
import PinFile.Proofs.Text.Pieces

/-!
# Command lines without a log file

Only an argument that starts with `--log-file` gives a log file (`logFile_eq_none`): no letter
stands for that option, and a long option is found by the name that it starts with.
-/

namespace PinFile.Command

open Text

/-- The argument may name a log file. -/
def NamesLog (arg : String) : Prop := "--log-file".toList <+: arg.toList

instance (arg : String) : Decidable (NamesLog arg) :=
  inferInstanceAs (Decidable ("--log-file".toList <+: arg.toList))

/-- What holds of every result. -/
def Always {ε α : Type} (p : α → Prop) (r : Except ε α) : Prop := ∀ a, r = .ok a → p a

section

variable {ε α β : Type} {p : α → Prop} {q : β → Prop}

theorem always_ok {a : α} (h : p a) : Always p (.ok a : Except ε α) := by
  rintro _ ⟨⟩
  exact h

theorem always_error (e : ε) : Always p (.error e : Except ε α) := nofun

theorem Always.bind {r : Except ε β} {f : β → Except ε α} (hr : Always q r)
    (hf : ∀ b, q b → Always p (f b)) : Always p (r >>= f) := by
  intro a h
  obtain ⟨b, hb, ha⟩ := bind_eq_ok_iff.mp h
  exact hf b (hr b hb) a ha

theorem always_bind {r : Except ε β} {f : β → Except ε α} (hf : ∀ b, Always p (f b)) :
    Always p (r >>= f) := by
  intro a h
  obtain ⟨b, -, ha⟩ := bind_eq_ok_iff.mp h
  exact hf b a ha

end

/-! ## Options -/

/-- No letter stands for the option of the log file. -/
def LogIsLong (rules : List OptionRule) : Prop :=
  ∀ rule ∈ rules, rule.long = "log-file" → rule.short = none

/-- No log file is given. -/
def Given.LacksLog (g : Given) : Prop := g.value? "log-file" = Option.none

variable {rules : List OptionRule} {rule : OptionRule} {g : Given}

instance : Decidable (LogIsLong rules) :=
  inferInstanceAs (Decidable (∀ rule ∈ rules, rule.long = "log-file" → rule.short = none))

theorem logIsLong_valued {long : String} {kind : ValueKind} (h : long ≠ "log-file")
    (hr : LogIsLong rules) : LogIsLong (valued long kind :: rules) :=
  List.forall_mem_cons.mpr ⟨fun hl => absurd hl h, hr⟩

theorem logIsLong_commonRules (hr : LogIsLong rules) : LogIsLong (commonRules ++ rules) :=
  List.forall_mem_append.mpr ⟨show LogIsLong commonRules by decide, hr⟩

theorem lacksLog_none : Given.none.LacksLog := rfl

theorem lacksLog_put (hg : g.LacksLog) (hl : rule.long ≠ "log-file") (value : String) :
    (g.put rule value).LacksLog := by
  unfold Given.LacksLog Given.value? at *
  rw [Option.map_eq_none_iff] at hg ⊢
  rw [Given.put, List.find?_append, hg]
  simp [hl]

theorem lacksLog_add (hg : g.LacksLog) (hl : rule.long ≠ "log-file") (value : String) :
    Always Given.LacksLog (g.add rule value) := by
  unfold Given.add
  split
  · exact always_ok (lacksLog_put hg hl value)
  · exact always_error _

theorem lacksLog_addOperands (hg : g.LacksLog) (most : Nat) (operands : List String) :
    Always Given.LacksLog (g.addOperands most operands) := by
  unfold Given.addOperands
  split
  · exact always_ok hg
  · exact always_error _

theorem lacksLog_addNext {level : LevelRules} (hg : g.LacksLog) (hl : rule.long ≠ "log-file")
    (value : String) (rest : List String) :
    Always Given.LacksLog (addNext level g rule value rest) := by
  unfold addNext
  split
  · exact always_error _
  · split
    · exact always_ok (lacksLog_put hg hl value)
    · exact lacksLog_add hg hl value

/-- The options so far lack a log file, and it is not the option that waits for its value. -/
def KeepsLacking (r : Given × Option OptionRule) : Prop :=
  r.1.LacksLog ∧ ∀ rule ∈ r.2, rule.long ≠ "log-file"

theorem keepsLacking_readLetters (hr : LogIsLong rules) (hg : g.LacksLog) (cs : List Char) :
    Always KeepsLacking (readLetters rules g cs) := by
  induction cs generalizing g with
  | nil => exact always_ok ⟨hg, nofun⟩
  | cons c cs ih =>
    unfold readLetters
    split
    · exact always_error _
    · rename_i rule hf
      have hl : rule.long ≠ "log-file" := by
        intro hl
        have hs := List.find?_some hf
        rw [hr rule (List.mem_of_find?_eq_some hf) hl] at hs
        cases hs
      split
      · exact always_error _
      · exact (lacksLog_add hg hl "").bind fun g hg => ih hg
      · exact (lacksLog_add hg hl "").bind fun g hg => ih hg
      · split
        · refine always_ok ⟨hg, ?_⟩
          rintro _ ⟨⟩
          exact hl
        · exact (lacksLog_add hg hl _).bind fun g hg => always_ok ⟨hg, nofun⟩
        · exact (lacksLog_add hg hl _).bind fun g hg => always_ok ⟨hg, nofun⟩

/-- The name of a long option stands in front of its value. -/
theorem prefix_of_cut? {cs name : List Char} {value : Option String}
    (h : (match cut? (· == '=') cs with
      | some (name, value) => (name, some (String.ofList value))
      | none => (cs, none)) = (name, value)) : name <+: cs := by
  split at h
  · rename_i hcut
    cases h
    obtain ⟨_, _, rfl, -⟩ := eq_append_of_cut? hcut
    exact List.prefix_append _ _
  · cases h
    exact List.prefix_refl _

theorem keepsLacking_readLong (hg : g.LacksLog) {cs : List Char}
    (hc : ¬ "log-file".toList <+: cs) : Always KeepsLacking (readLong rules g cs) := by
  unfold readLong
  split
  rename_i name value h
  split
  · exact always_error _
  · rename_i rule hf
    have hl : rule.long ≠ "log-file" := by
      intro hl
      have hs := List.find?_some hf
      simp only [beq_iff_eq, hl] at hs
      exact hc (hs ▸ prefix_of_cut? h)
    split
    · refine always_ok ⟨hg, ?_⟩
      rintro _ ⟨⟩
      exact hl
    · exact (lacksLog_add hg hl _).bind fun g hg => always_ok ⟨hg, nofun⟩
    · exact always_error _
    · exact always_error _
    · exact (lacksLog_add hg hl _).bind fun g hg => always_ok ⟨hg, nofun⟩
    · exact (lacksLog_add hg hl _).bind fun g hg => always_ok ⟨hg, nofun⟩

/-! ## Levels -/

/-- No log file is given, and the arguments left over are among those that there were. -/
def LeavesLacking (args : List String) (r : Given × List String) : Prop :=
  r.1.LacksLog ∧ r.2 ⊆ args

/-- What is read behind an option, which may have to take its value first. -/
def readBehind (level : LevelRules) (r : Except Refusal (Given × Option OptionRule))
    (rest : List String) : Except Refusal (Given × List String) :=
  match r, rest with
  | .error e, _ => .error e
  | .ok (g, none), rest => readOptions level g rest
  | .ok (_, some _), [] => .error .usage
  | .ok (g, some rule), value :: rest =>
    match addNext level g rule value rest with
    | .error e => .error e
    | .ok g => readOptions level g rest

theorem readOptions_cons (level : LevelRules) (arg : String) (rest : List String) :
    readOptions level g (arg :: rest) =
      match arg.toList with
      | ['-', '-'] =>
        match level.operands with
        | none => .error .usage
        | some most => (g.addOperands most rest).bind fun g => .ok (g, [])
      | '-' :: '-' :: name => readBehind level (readLong level.options g name) rest
      | '-' :: c :: letters => readBehind level (readLetters level.options g (c :: letters)) rest
      | _ =>
        match level.operands with
        | none => .ok (g, arg :: rest)
        | some most =>
          match g.addOperands most [arg] with
          | .error e => .error e
          | .ok g => readOptions level g rest := by
  rw [readOptions]
  rfl

section

variable {level : LevelRules} {args rest : List String}

theorem leavesLacking_readBehind {r : Except Refusal (Given × Option OptionRule)}
    (hr : Always KeepsLacking r)
    (ih : ∀ g more, Given.LacksLog g → more <:+ rest →
      Always (LeavesLacking more) (readOptions level g more)) :
    Always (LeavesLacking rest) (readBehind level r rest) := by
  unfold readBehind
  split
  · exact always_error _
  · rename_i g
    exact ih g _ (hr _ rfl).1 List.suffix_rfl
  · exact always_error _
  · rename_i g rule value more
    obtain ⟨hg, hl⟩ := hr _ rfl
    split
    · exact always_error _
    · rename_i g' hadd
      intro a h
      have hg' : g'.LacksLog := lacksLog_addNext hg (hl rule rfl) value more g' hadd
      obtain ⟨hlack, hsub⟩ := ih g' more hg' (List.suffix_cons value more) a h
      exact ⟨hlack, fun _ hm => List.mem_cons_of_mem _ (hsub hm)⟩

theorem leavesLacking_readOptions (hr : LogIsLong level.options)
    (ha : ∀ arg ∈ args, ¬ NamesLog arg) (hg : g.LacksLog) :
    Always (LeavesLacking args) (readOptions level g args) := by
  -- An option may take the next argument too, so the induction is on the number of arguments.
  induction hn : args.length using Nat.strongRecOn generalizing args g with
  | ind n ih =>
    cases args with
    | nil => exact always_ok ⟨hg, List.Subset.refl _⟩
    | cons arg rest =>
      have harg : ¬ NamesLog arg := ha arg List.mem_cons_self
      have ih : ∀ g more, Given.LacksLog g → more <:+ rest →
          Always (LeavesLacking more) (readOptions level g more) := by
        intro g more hg hm
        have hlt : more.length < n := by
          rw [← hn, List.length_cons]
          exact Nat.lt_succ_of_le hm.length_le
        exact ih _ hlt (fun a hm' => ha a (List.mem_cons_of_mem _ (hm.subset hm'))) hg rfl
      have hcons {r : Except Refusal (Given × List String)} (h : Always (LeavesLacking rest) r) :
          Always (LeavesLacking (arg :: rest)) r :=
        fun a hr => ⟨(h a hr).1, fun _ hm => List.mem_cons_of_mem _ ((h a hr).2 hm)⟩
      rw [readOptions_cons]
      split
      · split
        · exact always_error _
        · rename_i most _
          exact (lacksLog_addOperands hg most rest).bind fun g hg =>
            always_ok ⟨hg, List.nil_subset _⟩
      · rename_i name _ hname
        refine hcons (leavesLacking_readBehind (keepsLacking_readLong hg fun hp => harg ?_) ih)
        unfold NamesLog
        rw [hname]
        exact (List.prefix_cons_inj '-').mpr ((List.prefix_cons_inj '-').mpr hp)
      · exact hcons (leavesLacking_readBehind (keepsLacking_readLetters hr hg _) ih)
      · split
        · exact always_ok ⟨hg, List.Subset.refl _⟩
        · split
          · exact always_error _
          · rename_i hadd
            exact hcons (ih _ rest (lacksLog_addOperands hg _ _ _ hadd) List.suffix_rfl)

end

/-! ## Commands -/

section

variable {c : Common} {raw args : List String}

theorem logFile_after (hc : c.logFile = none) (hg : g.LacksLog) : (c.after g).logFile = none := by
  rw [Common.after, show g.value? "log-file" = none from hg]
  exact hc

variable (ha : ∀ arg ∈ args, ¬ NamesLog arg) (hc : c.logFile = none)

include ha hc

theorem always_lastLevel (hr : LogIsLong rules) (operands : Nat) :
    Always (fun r => r.1.logFile = none) (lastLevel c rules operands args) :=
  (leavesLacking_readOptions (logIsLong_commonRules hr) ha lacksLog_none).bind fun _ hg =>
    always_ok (logFile_after hc hg.1)

theorem always_outerLevel (hr : LogIsLong rules)
    {subcommand : Common → Given → String → List String → Except Refusal Invocation}
    (h : ∀ c g name rest, c.logFile = none → (∀ arg ∈ rest, ¬ NamesLog arg) →
      Always (·.logFile = none) (subcommand c g name rest)) :
    Always (·.logFile = none) (outerLevel c rules args subcommand) := by
  refine (leavesLacking_readOptions (logIsLong_commonRules hr) ha lacksLog_none).bind
    fun ⟨g, rest⟩ ⟨hg, hrest⟩ => ?_
  cases rest with
  | nil => exact always_error _
  | cons name rest =>
    have hrest : ∀ arg ∈ rest, ¬ NamesLog arg := fun arg hm =>
      ha arg (hrest (List.mem_cons_of_mem _ hm))
    refine (h _ g name rest (logFile_after hc hg) hrest).bind fun i hi => ?_
    split
    · exact always_ok hi
    · exact always_error _

/-- Nothing behind the options of a last level changes what they say about the log file. -/
theorem always_readCheck : Always (·.logFile = none) (readCheck c raw args) :=
  (always_lastLevel ha hc (by decide) 1).bind fun _ hc' => always_bind fun _ => always_ok hc'

theorem always_readFormat : Always (·.logFile = none) (readFormat c args) := by
  refine (always_lastLevel ha hc (by decide) 1).bind fun _ hc' => always_bind fun _ => ?_
  dsimp only
  split <;> exact always_bind fun _ => always_ok hc'

theorem always_readList : Always (·.logFile = none) (readList c args) :=
  (always_lastLevel ha hc (by decide) 1).bind fun _ hc' => always_bind fun _ => always_ok hc'

theorem always_readExport : Always (·.logFile = none) (readExport c args) :=
  (always_lastLevel ha hc (by decide) 1).bind fun _ hc' => always_bind fun _ =>
    always_bind fun _ => always_ok hc'

theorem always_readDiff : Always (·.logFile = none) (readDiff c args) := by
  refine (always_lastLevel ha hc (by decide) 2).bind fun _ hc' => ?_
  dsimp only
  split
  · exact always_ok hc'
  · exact always_error _

theorem always_readSave : Always (·.1.logFile = none) (readSave c raw args) :=
  (always_lastLevel ha hc (logIsLong_valued (by decide) (by decide)) 1).bind fun _ hc' =>
    always_bind fun _ => always_bind fun _ => always_ok hc'

theorem always_readShow : Always (·.1.logFile = none) (readShow c raw args) :=
  (always_lastLevel ha hc (logIsLong_valued (by decide) (by decide)) 0).bind fun _ hc' =>
    always_bind fun _ => always_ok hc'

theorem always_readSnapshotDiff : Always (·.1.logFile = none) (readSnapshotDiff c raw args) :=
  (always_lastLevel ha hc (logIsLong_valued (by decide) (by decide)) 1).bind fun _ hc' =>
    always_bind fun _ => always_bind fun _ => always_ok hc'

theorem always_readSnapshotList : Always (·.1.logFile = none) (readSnapshotList c args) :=
  (always_lastLevel ha hc (by decide) 0).bind fun _ hc' => always_ok hc'

theorem always_readSnapshot : Always (·.logFile = none) (readSnapshot c raw args) := by
  refine always_outerLevel ha hc (by decide) fun c' g name rest hc' ha' => ?_
  dsimp only
  split
  · exact (always_readSave ha' hc').bind fun _ h => always_ok h
  · exact (always_readShow ha' hc').bind fun _ h => always_ok h
  · exact (always_readSnapshotDiff ha' hc').bind fun _ h => always_ok h
  · exact (always_readSnapshotList ha' hc').bind fun _ h => always_ok h
  · exact always_error _
  · exact always_error _

end

/-- Without an argument that may name one there is no log file. -/
theorem logFile_eq_none {args raw : List String} (ha : ∀ arg ∈ args, ¬ NamesLog arg) :
    Always (·.logFile = none) (read args raw) := by
  refine always_outerLevel ha rfl (by decide) fun c g name rest hc ha => ?_
  split
  · exact always_readCheck ha hc
  · exact always_readFormat ha hc
  · exact always_readList ha hc
  · exact always_readExport ha hc
  · exact always_readDiff ha hc
  · exact always_readSnapshot ha hc
  · exact always_error _
  · exact always_error _

end PinFile.Command
