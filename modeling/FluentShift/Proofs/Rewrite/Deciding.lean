import FluentShift.Proofs.Rewrite.Repeat

/-!
# FluentShift.Proofs.Rewrite.Deciding - the argument whose type decides

Of all the types that an oracle is asked for, a rewrite reads one for a call: that of the third of three arguments, and that
of the message among four.  What it comes to is a function of the tags of those arguments, up to the tags that it notes down
itself (`rewrite_of_sameTags`).  Every step of a rewrite looks at classifications only, so forgetting the noted tags
(`untagged`) goes through the steps one after the other.
-/

namespace FluentShift.Rewrite

open FluentShift.Source FluentShift.Types FluentShift.Scope FluentShift.Imports

/-! ### The argument that decides -/

/-- The place of the argument whose type decides about a call with so many arguments. -/
def decidingPlace (m : Mapping) (count : Nat) : Option ArgumentIndex :=
  match count with
  | 3 => some (.at_ 2)
  | 4 => some m.messageIndex
  | _ => none

/-- The argument of a call whose type decides, with the path of its value. -/
def decidingArgument (m : Mapping) (c : CallSite) : Option (Path × Argument) :=
  (decidingPlace m c.call.arguments.length).bind fun i => (ArgumentIndex.pick i (c.call.argumentsAt c.path)).toOption

/-- The tag that the oracle of a rewrite gives an argument in a file. -/
def tagOf (s : Setup) (f : SourceFile) (a : Path × Argument) : Tag :=
  s.vocabulary.tag ((s.oracle.prepare s.vocabulary (Table.ofModule f.tree) f.tree).typeOf a.1 a.2.value)

/-- Two oracles give the same tag to every argument in a file that decides about a call with plain arguments. -/
def SameTags (m : Mapping) (v : Vocabulary) (o o' : Oracle) (f : SourceFile) : Prop :=
  ∀ c ∈ collect m (Table.ofModule f.tree) f.tree, hasPlainArguments c.call = true →
    ∀ a ∈ decidingArgument m c, tagOf ⟨m, v, o⟩ f a = tagOf ⟨m, v, o'⟩ f a

instance (m : Mapping) (v : Vocabulary) (o o' : Oracle) (f : SourceFile) : Decidable (SameTags m v o o' f) :=
  inferInstanceAs (Decidable (∀ c ∈ collect m (Table.ofModule f.tree) f.tree, hasPlainArguments c.call = true →
    ∀ a ∈ decidingArgument m c, tagOf ⟨m, v, o⟩ f a = tagOf ⟨m, v, o'⟩ f a))

theorem tagsOf_eq_map (s : Setup) (f : SourceFile) (c : CallSite) :
    tagsOf s f c = (c.call.argumentsAt c.path).map (tagOf s f) := by
  rw [tagsOf, argumentTags, argumentTypes, List.map_map]
  rfl

/-- A classification depends on the number of tags and on the one that decides. -/
theorem classify_congr {m : Mapping} {tags tags' : List Tag} (hlen : tags.length = tags'.length)
    (h : ∀ i, decidingPlace m tags.length = some i → ArgumentIndex.pick i tags = ArgumentIndex.pick i tags') (count : Int) :
    classify m count tags = classify m count tags' := by
  unfold classify
  rw [hlen]
  split
  · rfl
  · match tags, tags', hlen, h with
    | [], [], _, _ => rfl
    | [_], [_], _, _ => rfl
    | [_, _], [_, _], _, _ => rfl
    -- three tags are told apart by the third, four by the one at the place of the message
    | [_, _, third], [_, _, third'], _, h =>
      have hthird : (Except.ok third : Except Failure Tag) = .ok third' := h (.at_ 2) rfl
      cases hthird
      rfl
    | [_, _, _, _], [_, _, _, _], _, h =>
      simp only
      rw [h m.messageIndex rfl]
    | _ :: _ :: _ :: _ :: _ :: _, _ :: _ :: _ :: _ :: _ :: _, _, _ => rfl

/-! ### Forgetting tags -/

/-- A rewritten call without the tags that were noted down for it. -/
def Rewritten.untagged (r : Rewritten) : Rewritten := { r with tags := [] }

/-- An outcome without the tags that were noted down. -/
def Outcome.untagged (o : Outcome) : Outcome := { o with rewritten := o.rewritten.map Rewritten.untagged }

/-- A decision about a call, without the tags that were noted down. -/
def untaggedDecision (d : Rewritten ⊕ Skipped) : Rewritten ⊕ Skipped := d.map Rewritten.untagged id

/-- What is decided about a call depends on the tags through its classification only. -/
theorem decideCall_congr {m : Mapping} {bound : List (String × String)} {tags tags' : List Tag} {c : CallSite}
    (hlen : tags.length = tags'.length)
    (h : hasPlainArguments c.call = true →
      ∀ i, decidingPlace m tags.length = some i → ArgumentIndex.pick i tags = ArgumentIndex.pick i tags') :
    (decideCall m bound tags c).map untaggedDecision = (decideCall m bound tags' c).map untaggedDecision := by
  unfold decideCall
  split
  · rfl
  · rename_i hplain
    have hplain : hasPlainArguments c.call = true := by simpa using hplain
    rw [classify_congr hlen (h hplain), hlen]
    cases classify m tags'.length tags' with
    | error e => rfl
    | ok k =>
      simp only
      split <;> rfl

/-- Forgetting the tags of the plans is planning without them. -/
theorem planSites_untagged (decide : CallSite → Except Failure (Rewritten ⊕ Skipped)) (cs : List CallSite) :
    (planSites decide cs).map (Prod.map (List.map Rewritten.untagged) id) =
      planSites (fun c => (decide c).map untaggedDecision) cs := by
  induction cs with
  | nil => rfl
  | cons c cs ih =>
    unfold planSites
    rw [← ih]
    cases decide c with
    | error e => rfl
    | ok d => cases d <;> cases planSites decide cs <;> rfl

theorem planSites_congr {decide decide' : CallSite → Except Failure (Rewritten ⊕ Skipped)} {cs : List CallSite}
    (h : ∀ c ∈ cs, decide c = decide' c) : planSites decide cs = planSites decide' cs := by
  induction cs with
  | nil => rfl
  | cons c cs ih =>
    unfold planSites
    rw [h c List.mem_cons_self, ih fun c hc => h c (List.mem_cons_of_mem _ hc)]

theorem planKeys_untagged (plans : List Rewritten) : planKeys (plans.map Rewritten.untagged) = planKeys plans := by
  rw [planKeys, List.map_map]
  rfl

theorem splicedOutcome_untagged (m : Mapping) (f : SourceFile) (plans : List Rewritten) (skipped : List Skipped)
    (spliced : Spliced) : (splicedOutcome m f plans skipped spliced).untagged =
      splicedOutcome m f (plans.map Rewritten.untagged) skipped spliced := by
  have hrewritten : (plans.map Rewritten.untagged).filter (fun r => spliced.applied.contains r.site.path) =
      (plans.filter fun r => spliced.applied.contains r.site.path).map Rewritten.untagged := List.filter_map
  have hfailed : ∀ q, ((plans.map Rewritten.untagged).find? fun r => r.site.path = q) =
      (plans.find? fun r => r.site.path = q).map Rewritten.untagged := fun q => List.find?_map
  unfold Outcome.untagged splicedOutcome
  simp only [hrewritten, hfailed, List.flatMap_map, Option.map_map]
  rfl

/-- What planned and skipped calls of a file come to. -/
def planResult (m : Mapping) (f : SourceFile) (plans : List Rewritten) (skipped : List Skipped) : Except Failure Outcome :=
  if plans.isEmpty then .ok (.untouched f skipped)
  else splice m (planKeys plans) f.tree >>= fun spliced => .ok (splicedOutcome m f plans skipped spliced)

/-- Splicing looks at the classifications of the plans only. -/
theorem planResult_untagged (m : Mapping) (f : SourceFile) (plans : List Rewritten) (skipped : List Skipped) :
    (planResult m f plans skipped).map Outcome.untagged =
      planResult m f (plans.map Rewritten.untagged) skipped := by
  unfold planResult
  rw [List.isEmpty_map, planKeys_untagged]
  split
  · rfl
  · cases splice m (planKeys plans) f.tree with
    | error e => rfl
    | ok spliced => exact congrArg Except.ok (splicedOutcome_untagged m f plans skipped spliced)

/-! ### Rewrites that forget tags -/

section Runs

variable {m : Mapping} {v : Vocabulary} {o o' : Oracle} {f : SourceFile}

/-- Rewriting the calls of a file and forgetting the tags is working with decisions that forget them. -/
theorem rewriteResult_untagged (s : Setup) (f : SourceFile) : (rewriteResult s f).map Outcome.untagged =
    if (sitesOf s f).isEmpty then .ok (.untouched f [])
    else planSites (fun c => (decideIn s f c).map untaggedDecision) (sitesOf s f) >>= fun p =>
      planResult s.mapping f p.1 p.2 := by
  unfold rewriteResult
  rw [← planSites_untagged]
  split
  · rfl
  · cases planSites (decideIn s f) (sitesOf s f) with
    | error e => rfl
    | ok p => exact planResult_untagged s.mapping f p.1 p.2

/-- What is decided about a call is the same under both oracles. -/
theorem decideIn_of_sameTags (h : SameTags m v o o' f) {c : CallSite} (hc : c ∈ sitesOf ⟨m, v, o⟩ f) :
    (decideIn ⟨m, v, o⟩ f c).map untaggedDecision = (decideIn ⟨m, v, o'⟩ f c).map untaggedDecision := by
  have hlen := length_argumentsAt_of_site hc
  refine decideCall_congr ?_ fun hplain i hi => ?_
  · rw [tagsOf_eq_map, tagsOf_eq_map, List.length_map, List.length_map]
  · rw [tagsOf_eq_map, List.length_map, hlen] at hi
    rw [tagsOf_eq_map, tagsOf_eq_map, pick_of_map, pick_of_map]
    have hsame := h c hc hplain
    rw [decidingArgument, hi, Option.bind_some] at hsame
    cases hpick : ArgumentIndex.pick i (c.call.argumentsAt c.path) with
    | error e => rfl
    | ok a =>
      rw [hpick] at hsame
      exact congrArg Except.ok (hsame a rfl)

theorem rewriteResult_of_sameTags (h : SameTags m v o o' f) :
    (rewriteResult ⟨m, v, o⟩ f).map Outcome.untagged = (rewriteResult ⟨m, v, o'⟩ f).map Outcome.untagged := by
  rw [rewriteResult_untagged, rewriteResult_untagged, planSites_congr fun c hc => decideIn_of_sameTags h hc]
  rfl

theorem value_reconcileImports (m : Mapping) (r : Outcome) :
    (reconcileImports m r).value =
      if r.rewritten.isEmpty || r.reconciled then .ok r
      else (apply m (plan m r.required r.file.tree) r.file).value >>= fun e =>
        .ok { r with file := e.file, edits := e.edits, reconciled := true } := by
  unfold reconcileImports
  split
  · rfl
  · exact ((apply_gives m _ _).bind fun e => Run.gives_pure _).value

/-- Fixing the imports does not look at tags. -/
theorem reconcileImports_untagged (m : Mapping) (r : Outcome) :
    (reconcileImports m r).value.map Outcome.untagged = (reconcileImports m r.untagged).value := by
  rw [value_reconcileImports, value_reconcileImports]
  show _ = if (r.rewritten.map Rewritten.untagged).isEmpty || r.reconciled then _ else _
  rw [List.isEmpty_map]
  split
  · rfl
  · show Except.map _ ((apply m (plan m r.required r.file.tree) r.file).value >>= _) =
      (apply m (plan m r.required r.file.tree) r.file).value >>= _
    cases (apply m (plan m r.required r.file.tree) r.file).value <;> rfl

theorem value_rewrite (s : Setup) (f : SourceFile) :
    (rewrite s f).value = rewriteResult s f >>= fun r => (reconcileImports s.mapping r).value :=
  ((rewriteCalls_gives s f).bind fun r => reconcileImports_gives s.mapping r).value

theorem value_rewrite_untagged (s : Setup) (f : SourceFile) :
    (rewrite s f).value.map Outcome.untagged =
      (rewriteResult s f).map Outcome.untagged >>= fun r => (reconcileImports s.mapping r).value := by
  rw [value_rewrite]
  cases rewriteResult s f with
  | error e => rfl
  | ok r => exact reconcileImports_untagged s.mapping r

/-- The new text of a file, which only a change makes differ from the old one. -/
def newCode (code : String) (r : Outcome) : String := if r.changed then r.file.code else code

theorem newCode_untagged (code : String) (r : Outcome) : newCode code r.untagged = newCode code r := by
  have hchanged : r.untagged.changed = r.changed := by
    show (!(r.rewritten.map Rewritten.untagged).isEmpty || _) = _
    rw [List.isEmpty_map]
    rfl
  rw [newCode, hchanged]
  rfl

theorem value_migrateSource (s : Setup) (code : String) :
    (migrateSource s code).value = (readSource code "<string>").value >>= fun f =>
      ((rewrite s f).value.map Outcome.untagged).map (newCode code) := by
  rw [migrateSource, Run.value_map, value_migrateWithOutcome]
  cases (readSource code "<string>").value with
  | error e => rfl
  | ok f =>
    show Prod.fst <$> ((rewriteCalls s f).value >>= _) = ((rewrite s f).value.map Outcome.untagged).map (newCode code)
    rw [value_rewrite, ← (rewriteCalls_gives s f).value]
    cases (rewriteCalls s f).value with
    | error e => rfl
    | ok r =>
      show Prod.fst <$> ((reconcileImports s.mapping r).value >>= _) =
        ((reconcileImports s.mapping r).value.map Outcome.untagged).map (newCode code)
      cases (reconcileImports s.mapping r).value with
      | error e => rfl
      | ok r => exact congrArg Except.ok (newCode_untagged code r).symm

end Runs

/-! ### Two oracles -/

/-- An oracle that knows the types of two expressions and fails on all others. -/
def stubborn : Oracle :=
  .supplied fun _ _ _ => .ok fun _ e =>
    if e.text = "0.1" then .ok (some .float) else if e.text = "'why'" then .ok (some .str) else .error "no type"

/-- A text with a tolerance among three arguments and a message among four. -/
def measuredText : String :=
  "from junit.Assertions import assertEquals as eq\neq(x, 1.5, 0.1)\neq(x, y, 'why', eq(1, 2))\n"

/-- `measuredText` after a run. -/
def measuredOnce : String :=
  "from assertj.Assertions import assertThat, within\n\nassertThat(1.5).isCloseTo(x, within(0.1))\n" ++
    "assertThat(y).describedAs('why').isCloseTo(x, within(assertThat(2).isEqualTo(1)))\n"

/-- Whether two oracles agree about the arguments that decide in a text, and the tags they give to all arguments. -/
def comparison (o o' : Oracle) (text : String) : Option (Bool × List (List Tag) × List (List Tag)) :=
  (SourceFile.parse? text).map fun f =>
    (decide (SameTags .standard .standard o o' f),
      (sitesOf plainSetup f).map (tagsOf ⟨.standard, .standard, o⟩ f),
      (sitesOf plainSetup f).map (tagsOf ⟨.standard, .standard, o'⟩ f))

set_option maxRecDepth 100000 in
theorem comparison_measuredText : comparison .local_ stubborn measuredText = some (true,
    [[.other, .floatingPoint, .floatingPoint], [.other, .other, .string, .other], [.other, .other]],
    [[.other, .other, .floatingPoint], [.other, .other, .string, .other], [.other, .other]]) := by
  decide +kernel

set_option maxRecDepth 100000 in
theorem runs_measuredText : runOn plainSetup measuredText = some (measuredOnce, true) := by
  rw [runOn_plainSetup]
  decide +kernel

end FluentShift.Rewrite
