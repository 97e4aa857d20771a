import FluentShift.Proofs.Files.Tree
import FluentShift.Proofs.Files.Work

/-!
# FluentShift.Proofs.Files.Twins - the same work on two disks

`Sees a ps d e`: the paths `ps` see the same on the disk `e` as on `d`, but for directories that were made on the way to
them.  Work that only uses such paths then comes to the same answer on both disks, and what it changes on `d` becomes the
same on `e` (`Twin`), under a system that allows the same at every attempt: that a directory is made on the one disk and
there already on the other makes no difference, as long as the system allows to make it.
-/

namespace FluentShift.Files

open Disk

/-- The paths see the same on the second disk, but for directories that were made on the way to them and that may be made
on the first one, too. -/
structure Sees (a : Answers) (ps : List FilePath) (d e : Disk) : Prop where
  tree : d.IsTree
  tree' : e.IsTree
  directory : ∀ q, d.at? q = some .directory → e.at? q = some .directory
  lane : ∀ p ∈ ps, d.Descends p
  same : ∀ p ∈ ps, ∀ q, q <+: Place.ofPath p →
    e.at? q = d.at? q ∨ q ≠ Place.ofPath p ∧ d.at? q = none ∧ e.at? q = some .directory ∧
      a.obstacle? (.makeDirectory q) = none

/-- From two disks `d` and `e` one comes to `d'` and `e'` by the same changes; the directories that are new on the first one
were allowed. -/
structure Both (a : Answers) (d e d' e' : Disk) : Prop where
  tree : d'.IsTree
  tree' : e'.IsTree
  directory : ∀ q, d.at? q = some .directory → d'.at? q = some .directory
  alike : ∀ q, e'.at? q = d'.at? q ∨ d'.at? q = d.at? q ∧ e'.at? q = e.at? q
  allowed : ∀ q, d'.at? q = some .directory → d.at? q = some .directory ∨ a.obstacle? (.makeDirectory q) = none

namespace Both

variable {a : Answers} {ps : List FilePath} {d e d' e' d'' e'' : Disk}

theorem refl (h : Sees a ps d e) : Both a d e d e :=
  ⟨h.tree, h.tree', fun _ h => h, fun _ => .inr ⟨rfl, rfl⟩, fun _ h => .inl h⟩

theorem trans (h : Both a d e d' e') (h' : Both a d' e' d'' e'') : Both a d e d'' e'' := by
  refine ⟨h'.tree, h'.tree', fun q hq => h'.directory q (h.directory q hq), fun q => ?_, fun q hq => ?_⟩
  · rcases h'.alike q with heq | ⟨hd, he⟩
    · exact .inl heq
    · rw [hd, he]
      exact h.alike q
  · exact (h'.allowed q hq).elim (h.allowed q) .inr

/-- What the paths see stays the same. -/
theorem sees (h : Both a d e d' e') (hsees : Sees a ps d e) : Sees a ps d' e' := by
  refine ⟨h.tree, h.tree', fun q hq => ?_, fun p hp => ?_, fun p hp q hq => ?_⟩
  · rcases h.alike q with heq | ⟨hd, he⟩
    · exact heq.trans hq
    · exact he.trans (hsees.directory q (hd ▸ hq))
  · obtain ⟨base, names, hlane⟩ := hsees.lane p hp
    exact ⟨base, names, hlane.mono h.directory⟩
  · rcases h.alike q with heq | ⟨hd, he⟩
    · exact .inl heq
    · rw [hd, he]
      exact hsees.same p hp q hq

/-- Making the same directories on both disks. -/
theorem made {base : Place} {names : List String} (hsees : Sees a ps d e) (hbase : d.at? base = some .directory)
    (hopen : ¬ Barred d base names) (hallowed : Allowed a d base names) (hd : Made base names d d')
    (he : Made base names e e') : Both a d e d' e' := by
  refine ⟨hd.tree hbase hsees.tree, he.tree (hsees.directory _ hbase) hsees.tree', fun _ => hd.directory, fun q => ?_,
    fun q hq => ?_⟩
  · rw [hd q, he q]
    split
    · exact .inl rfl
    · exact .inr ⟨rfl, rfl⟩
  · rw [hd q] at hq
    split at hq
    · rename_i hmem
      obtain ⟨⟨ns, rfl⟩, hns⟩ := hmem
      have hns : ns <+: names := (List.prefix_append_right_inj base).mp hns
      cases hat : d.at? (base ++ ns) with
      | none => exact .inr (hallowed ns hns hat)
      | some x =>
        cases x with
        | directory => exact .inl rfl
        | file b => exact absurd ⟨ns, b, hns, hat⟩ hopen
    · exact .inl hq

end Both

/-! ### What is seen -/

/-- On the way from a directory down by names the second disk has nothing new but directories that may be made. -/
def Beside (a : Answers) (d e : Disk) (base : Place) (names : List String) : Prop :=
  ∀ ns, ns <+: names → e.at? (base ++ ns) = d.at? (base ++ ns) ∨
    d.at? (base ++ ns) = none ∧ e.at? (base ++ ns) = some .directory ∧
      a.obstacle? (.makeDirectory (base ++ ns)) = none

/-- Files bar the way on both disks, or on none. -/
theorem Beside.barred {a : Answers} {d e : Disk} {base : Place} {names : List String} (h : Beside a d e base names) :
    Barred e base names ↔ Barred d base names := by
  have hsame : ∀ ns b, ns <+: names → (e.at? (base ++ ns) = some (.file b) ↔ d.at? (base ++ ns) = some (.file b)) := by
    intro ns b hns
    rcases h ns hns with heq | ⟨hd, he, -⟩
    · rw [heq]
    · rw [hd, he]
      exact ⟨nofun, nofun⟩
  exact ⟨fun ⟨ns, b, hns, hfile⟩ => ⟨ns, b, hns, (hsame ns b hns).mp hfile⟩,
    fun ⟨ns, b, hns, hfile⟩ => ⟨ns, b, hns, (hsame ns b hns).mpr hfile⟩⟩

/-- What is missing and refused on the first disk is missing on the second one. -/
theorem Beside.missing {a : Answers} {d e : Disk} {base : Place} {names ns : List String} {o : Obstacle}
    (h : Beside a d e base names) (hns : ns <+: names) (hnone : d.at? (base ++ ns) = none)
    (hrefused : a.obstacle? (.makeDirectory (base ++ ns)) = some o) : e.at? (base ++ ns) = none := by
  rcases h ns hns with heq | ⟨-, -, hallowed⟩
  · exact heq.trans hnone
  · rw [hrefused] at hallowed
    cases hallowed

/-- What is missing on the second disk is missing on the first one. -/
theorem Beside.missing_back {a : Answers} {d e : Disk} {base : Place} {names ns : List String}
    (h : Beside a d e base names) (hns : ns <+: names) (hnone : e.at? (base ++ ns) = none) : d.at? (base ++ ns) = none := by
  rcases h ns hns with heq | ⟨hd, -⟩
  · exact heq.symm.trans hnone
  · exact hd

/-- Making the directories on a lane stops at the same place on both disks: a place that is missing on the one and refused
is missing on the other. -/
theorem Beside.stops {a : Answers} {d e : Disk} {p : FilePath} {base : Place} {names ns ns' : List String}
    {answer answer' : Option Failure} (h : Beside a d e base names) (hd : Stops a d p base names ns answer)
    (he : Stops a e p base names ns' answer') (hallowed : Allowed a d base ns) (hallowed' : Allowed a e base ns') :
    ns' = ns ∧ answer' = answer := by
  have hle : ns' <+: ns := by
    rcases hd.refused he.below with hle | ⟨c, o, hnames, hbelow, free, refused⟩
    · exact hle
    · have hfree := hallowed' _ hbelow (h.missing hnames free refused)
      rw [refused] at hfree
      cases hfree
  have hle' : ns <+: ns' := by
    rcases he.refused hd.below with hle | ⟨c, o, hnames, hbelow, free, refused⟩
    · exact hle
    · have hfree := hallowed _ hbelow (h.missing_back hnames free)
      rw [refused] at hfree
      cases hfree
  obtain rfl := hle.eq_of_length_le hle'.length_le
  refine ⟨rfl, ?_⟩
  cases hd with
  | nowhere =>
    cases he with
    | nowhere => rfl
    | above split => exact absurd (congrArg List.length split) (by simp)
  | above split _ refused =>
    cases he with
    | nowhere => exact absurd (congrArg List.length split) (by simp)
    | above split' _ refused' =>
      rw [split, List.append_cancel_left_eq, List.cons.injEq] at split'
      obtain ⟨rfl, rfl⟩ := split'
      rw [refused, Option.some.injEq] at refused'
      rw [refused']

namespace Sees

variable {a : Answers} {ps : List FilePath} {d e : Disk} {p : FilePath} {base : Place} {names : List String}

theorem beside (h : Sees a ps d e) (hp : p ∈ ps) (hbelow : base ++ names <+: Place.ofPath p) : Beside a d e base names :=
  fun _ hns => (h.same p hp _ (((List.prefix_append_right_inj base).mpr hns).trans hbelow)).imp id And.right

theorem beside_nil (h : Sees a ps d e) (hbase : d.at? base = some .directory) : Beside a d e base [] := by
  intro _ hns
  rw [List.prefix_nil.mp hns, List.append_nil, hbase]
  exact .inl (h.directory base hbase)

theorem at_end (h : Sees a ps d e) (hp : p ∈ ps) : e.at? (Place.ofPath p) = d.at? (Place.ofPath p) :=
  (h.same p hp _ List.prefix_rfl).resolve_right fun hne => hne.1 rfl

/-- A path leads to the same on both disks, or to nothing. -/
theorem look (h : Sees a ps d e) (hp : p ∈ ps) :
    e.look p.text = d.look p.text ∨ Vacant (d.look p.text) ∧ Vacant (e.look p.text) := by
  obtain ⟨base, names, hd⟩ := h.lane p hp
  have he := hd.mono h.directory
  have hend := h.at_end hp
  have hbarred := (h.beside hp ⟨[], (List.append_nil _).trans hd.place.symm⟩).barred
  rw [hd.place] at hend
  rw [hd.look, he.look]
  split
  · exact .inl rfl
  · cases hat : d.at? (base ++ names) with
    | some x => exact .inl ((he.walk_found h.tree' (hend.trans hat)).trans (hd.walk_found h.tree hat).symm)
    | none =>
      rcases hd.walk_none h.tree hat, he.walk_none h.tree' (hend.trans hat) with
        ⟨⟨hb, hwalk⟩ | ⟨hopen, hvacant⟩, ⟨hb', hwalk'⟩ | ⟨hopen', hvacant'⟩⟩
      · exact .inl (hwalk'.trans hwalk.symm)
      · exact absurd (hbarred.mpr hb) hopen'
      · exact absurd (hbarred.mp hb') hopen
      · exact .inr ⟨hvacant, hvacant'⟩

theorem find (h : Sees a ps d e) (hp : p ∈ ps) : e.find p.text = d.find p.text := by
  unfold Disk.find
  rcases h.look hp with heq | ⟨hd | ⟨q, hd⟩, he | ⟨q', he⟩⟩
  · rw [heq]
  all_goals rw [hd, he]

theorem content? (h : Sees a ps d e) (hp : p ∈ ps) : e.content? p.text = d.content? p.text := by
  unfold Disk.content? Disk.entry?
  rcases h.look hp with heq | ⟨hd | ⟨q, hd⟩, he | ⟨q', he⟩⟩
  · rw [heq]
  all_goals rw [hd, he]

theorem read (h : Sees a ps d e) (hp : p ∈ ps) : e.read p.text = d.read p.text := by
  unfold Disk.read
  rcases h.look hp with heq | ⟨hd | ⟨q, hd⟩, he | ⟨q', he⟩⟩
  · rw [heq]
  all_goals rw [hd, he]

end Sees

/-! ### Making directories and writing -/

/-- Done on two disks, it comes to the same answer and makes the same changes. -/
def Agree {α : Type} (a : Answers) (d e : Disk) (r r' : α × Disk) : Prop :=
  ∃ x d' e', r = (x, d') ∧ r' = (x, e') ∧ Both a d e d' e'

theorem Agree.after {α : Type} {a : Answers} {d e d' e' : Disk} {r r' : α × Disk} (h : Agree a d' e' r r')
    (hboth : Both a d e d' e') : Agree a d e r r' := by
  obtain ⟨x, d'', e'', hr, hr', hboth'⟩ := h
  exact ⟨x, d'', e'', hr, hr', hboth.trans hboth'⟩

section Operations

variable {a : Answers} {ps : List FilePath} {d e : Disk} {p r : FilePath} {base : Place} {names : List String}

/-- Making the directories on a lane. -/
theorem Sees.makeDirectories (h : Sees a ps d e) (hr : d.Lane r base names) (hbeside : Beside a d e base names) :
    ∃ answer d' e', d.makeDirectories a r true = (d', answer) ∧ e.makeDirectories a r true = (e', answer) ∧
      Both a d e d' e' ∧ (answer = none → d'.at? (base ++ names) = some .directory) := by
  have hr' := hr.mono h.directory
  by_cases hlong : longestPath < r.text.utf8ByteSize
  · exact ⟨_, d, e, hr.makeDirectories_long a hlong, hr'.makeDirectories_long a hlong, Both.refl h, nofun⟩
  · have hshort := Nat.le_of_not_lt hlong
    by_cases hbarred : Barred d base names
    · have hbarred' := hbeside.barred.mpr hbarred
      have hend : e.at? (base ++ names) = d.at? (base ++ names) :=
        (hbeside names List.prefix_rfl).resolve_right fun hmade => not_barred h.tree' hmade.2.1 hbarred'
      have hrefused := hr'.makeDirectories_barred a h.tree' hshort hbarred'
      rw [hend] at hrefused
      exact ⟨_, d, e, hr.makeDirectories_barred a h.tree hshort hbarred, hrefused, Both.refl h, nofun⟩
    · obtain ⟨ns, d', answer, hd, hmade, hallowed, hstops⟩ := hr.makeDirectories_open a h.tree hshort hbarred
      obtain ⟨ns', e', answer', he, hmade', hallowed', hstops'⟩ :=
        hr'.makeDirectories_open a h.tree' hshort (hbeside.barred.not.mpr hbarred)
      obtain ⟨rfl, rfl⟩ := hbeside.stops hstops hstops' hallowed hallowed'
      have hopen : ¬ Barred d base ns' := fun ⟨ms, b, hms, hfile⟩ => hbarred ⟨ms, b, hms.trans hstops.below, hfile⟩
      refine ⟨answer', d', e', hd, he, Both.made h (hr.at?_base h.tree) hopen hallowed hmade hmade', ?_⟩
      rintro rfl
      cases hstops
      rw [hmade, if_pos ⟨List.prefix_append _ _, List.prefix_rfl⟩]

/-- A directory lies above a place. -/
def Housed (d : Disk) (p : Place) : Prop := ∀ q c, p = q ++ [c] → d.at? q = some .directory

/-- Making the directory that a path lies in. -/
theorem Sees.ensureParent (h : Sees a ps d e) (hp : p ∈ ps) :
    ∃ answer d' e', ensureParent a d p.text true = (answer, d') ∧ ensureParent a e p.text true = (answer, e') ∧
      Both a d e d' e' ∧ (answer = .ok () → Housed d' (Place.ofPath p)) := by
  obtain ⟨base, names, hlane⟩ := h.lane p hp
  obtain ⟨answer, d', e', hd, he, hboth, hmade⟩ : ∃ answer d' e', d.makeDirectories a p.parent true = (d', answer) ∧
      e.makeDirectories a p.parent true = (e', answer) ∧ Both a d e d' e' ∧
        (answer = none → Housed d' (Place.ofPath p)) := by
    rw [hlane.place]
    obtain rfl | ⟨init, c, rfl⟩ := List.eq_nil_or_concat names
    · -- the path leads to a directory, so there is one above it
      obtain ⟨base', hparent⟩ := hlane.parent_nil
      obtain ⟨answer, d', e', hd, he, hboth, -⟩ :=
        h.makeDirectories hparent (h.beside_nil (hparent.at?_base h.tree))
      refine ⟨answer, d', e', hd, he, hboth, fun _ q c hq => hboth.tree q c ?_⟩
      rw [← hq, List.append_nil, hboth.directory base (hlane.at?_base h.tree)]
      exact Option.some_ne_none _
    · rw [List.concat_eq_append] at *
      have hbelow : base ++ init <+: Place.ofPath p := ⟨[c], by rw [hlane.place, List.append_assoc]⟩
      obtain ⟨answer, d', e', hd, he, hboth, hmade⟩ := h.makeDirectories hlane.parent (h.beside hp hbelow)
      refine ⟨answer, d', e', hd, he, hboth, fun hnone q c' hq => ?_⟩
      rw [← List.append_assoc] at hq
      rw [← (List.append_inj' hq rfl).1]
      exact hmade hnone
  dsimp only [Files.ensureParent]
  rw [FilePath.ofString_text hlane.normal, hd, he]
  cases answer with
  | none => exact ⟨.ok (), d', e', rfl, rfl, hboth, fun _ => hmade rfl⟩
  | some f => exact ⟨_, d', e', rfl, rfl, hboth, nofun⟩

/-- Below a directory that is there a path leads to the same on both disks. -/
theorem Sees.look_housed (h : Sees a ps d e) (hp : p ∈ ps) (hhoused : Housed d (Place.ofPath p)) :
    e.look p.text = d.look p.text := by
  obtain ⟨base, names, hd⟩ := h.lane p hp
  have he := hd.mono h.directory
  have hend := h.at_end hp
  rw [hd.place] at hend hhoused
  rw [hd.look, he.look]
  split
  · rfl
  · cases hat : d.at? (base ++ names) with
    | some x => rw [he.walk_found h.tree' (hend.trans hat), hd.walk_found h.tree hat]
    | none =>
      obtain rfl | ⟨init, c, rfl⟩ := List.eq_nil_or_concat names
      · rw [List.append_nil, hd.at?_base h.tree] at hat
        cases hat
      · rw [List.concat_eq_append] at *
        rw [← List.append_assoc] at hat hend hhoused
        have hdir := hhoused _ c rfl
        rw [hd.walk_free h.tree hdir hat, he.walk_free h.tree' (h.directory _ hdir) (hend.trans hat)]

/-- On a tree a file may be put below a directory, where no directory is. -/
theorem Disk.IsTree.put_file (h : d.IsTree) {q : Place} (b : ByteArray) (hfile : d.at? q ≠ some .directory)
    (hhoused : Housed d q) : (d.put q (.file b)).IsTree := by
  intro q' c hbelow
  rw [at?_put (isAnchor_of_at? hfile)] at hbelow ⊢
  have hdir : d.at? q' = some .directory := by
    by_cases heq : q' ++ [c] = q
    · exact hhoused q' c heq.symm
    · rw [if_neg heq] at hbelow
      exact h q' c hbelow
  rw [if_neg, hdir]
  rintro rfl
  exact hfile hdir

/-- Putting a file at the end of a path. -/
theorem Both.put (h : Sees a ps d e) (hp : p ∈ ps) (b : ByteArray) (hhoused : Housed d (Place.ofPath p))
    (hfile : d.at? (Place.ofPath p) ≠ some .directory) :
    Both a d e (d.put (Place.ofPath p) (.file b)) (e.put (Place.ofPath p) (.file b)) := by
  have hfile' : e.at? (Place.ofPath p) ≠ some .directory := h.at_end hp ▸ hfile
  refine ⟨h.tree.put_file b hfile hhoused, h.tree'.put_file b hfile' fun q c hq => h.directory q (hhoused q c hq),
    fun q hq => ?_, fun q => ?_, fun q hq => .inl ?_⟩
  · rw [at?_put (isAnchor_of_at? hfile), if_neg, hq]
    rintro rfl
    exact hfile hq
  · rw [at?_put (isAnchor_of_at? hfile), at?_put (isAnchor_of_at? hfile')]
    split
    · exact .inl rfl
    · exact .inr ⟨rfl, rfl⟩
  · rw [at?_put (isAnchor_of_at? hfile)] at hq
    split at hq
    · cases hq
    · exact hq

/-- Only a path with parts may lead nowhere because of what it says. -/
theorem parts_ne_nil_of_look (h : d.Descends p) {f : SystemFault} (hlook : d.look p.text = .error f) : p.parts ≠ [] := by
  intro hparts
  obtain ⟨base, names, hlane⟩ := h
  have hshort : p.text.utf8ByteSize ≤ longestPath := by
    obtain ⟨start, parts⟩ := p
    obtain rfl : parts = [] := hparts
    rcases hlane.normal.start with rfl | rfl | rfl <;> decide
  have hnames : names = [] := List.eq_nil_of_length_eq_zero (by simpa [hparts] using hlane.length_le)
  rw [hlane.look_short hshort, hnames] at hlook
  cases hlook

/-- Writing a file below a directory that is there. -/
theorem Sees.write (h : Sees a ps d e) (hp : p ∈ ps) (b : ByteArray) (hhoused : Housed d (Place.ofPath p)) :
    (∃ f, d.write p.text b = .error f ∧ e.write p.text b = .error f) ∨
      ∃ d' e', d.write p.text b = .ok d' ∧ e.write p.text b = .ok e' ∧ Both a d e d' e' := by
  have hlane := h.lane p hp
  have hnormal : p.IsNormal := by
    obtain ⟨_, _, hlane⟩ := hlane
    exact hlane.normal
  have hlook := h.look_housed hp hhoused
  have hput : ∀ {spot : Spot}, d.look p.text = .ok spot → spot.entry? ≠ some .directory →
      Both a d e (d.put spot.place (.file b)) (e.put spot.place (.file b)) := by
    intro spot hspot hfile
    rw [← at?_of_look hspot hfile, Place.named_text hnormal] at hfile
    rw [place_look hspot, Place.named_text hnormal]
    exact Both.put h hp b hhoused hfile
  unfold Disk.write
  rw [hlook]
  cases hspot : d.look p.text with
  | ok spot =>
    match spot with
    | .found q .directory => exact .inl ⟨_, rfl, rfl⟩
    | .found q (.file _) => exact .inr ⟨_, _, rfl, rfl, hput hspot nofun⟩
    | .free q => exact .inr ⟨_, _, rfl, rfl, hput hspot nofun⟩
  | error f =>
    rw [FilePath.withoutEndSlashes_text hnormal (parts_ne_nil_of_look hlane hspot), hlook, hspot]
    exact .inl ⟨_, rfl, rfl⟩

/-- Writing a file, if that is allowed, and saying whether it was refused. -/
theorem Sees.written (h : Sees a ps d e) (hp : p ∈ ps) (b : ByteArray) (hhoused : Housed d (Place.ofPath p)) :
    Agree a d e
      (match d.writeUnder a p.text b with
        | .ok d' => (.ok (), d')
        | .error f => ((.error f : Except Failure Unit), d))
      (match e.writeUnder a p.text b with
        | .ok e' => (.ok (), e')
        | .error f => (.error f, e)) := by
  unfold Disk.writeUnder
  rcases h.write hp b hhoused with ⟨f, hd, he⟩ | ⟨d', e', hd, he, hboth⟩
  · rw [hd, he]
    exact ⟨_, d, e, rfl, rfl, Both.refl h⟩
  · rw [hd, he, Answers.grant, Answers.grant]
    cases a.obstacle? (.write (Place.named p.text)) with
    | none => exact ⟨_, d', e', rfl, rfl, hboth⟩
    | some o => exact ⟨_, d, e, rfl, rfl, Both.refl h⟩

/-- Reading a file, if that is allowed. -/
theorem Sees.readUnder (h : Sees a ps d e) (hp : p ∈ ps) : e.readUnder a p.text = d.readUnder a p.text := by
  rw [Disk.readUnder, h.read hp, Disk.readUnder]

/-- Writing a file, with the directory for it. -/
theorem Sees.writeFile (h : Sees a ps d e) (hp : p ∈ ps) (content : ByteArray) :
    Agree a d e (writeFile a d p.text content) (writeFile a e p.text content) := by
  obtain ⟨answer, d', e', hd, he, hboth, hhoused⟩ := h.ensureParent hp
  unfold Files.writeFile
  rw [hd, he]
  cases answer with
  | error f => exact ⟨_, d', e', rfl, rfl, hboth⟩
  | ok _ =>
    dsimp only
    exact ((hboth.sees h).written hp content (hhoused rfl)).after hboth

/-- Copying a file. -/
theorem Sees.copyFile (h : Sees a ps d e) (hr : r ∈ ps) (hp : p ∈ ps) :
    Agree a d e (copyFile a d r.text p) (copyFile a e r.text p) := by
  obtain ⟨answer, d', e', hd, he, hboth, hhoused⟩ := h.ensureParent hp
  unfold Files.copyFile
  rw [hd, he]
  cases answer with
  | error f => exact ⟨_, d', e', rfl, rfl, hboth⟩
  | ok _ =>
    dsimp only
    rw [(hboth.sees h).readUnder hr]
    cases d'.readUnder a r.text with
    | error f => exact ⟨_, d', e', rfl, rfl, hboth⟩
    | ok bytes =>
      dsimp only
      exact ((hboth.sees h).written hp bytes (hhoused rfl)).after hboth

end Operations

/-! ### Work -/

/-- The system allows the same at every attempt, and the same on both desks. -/
structure Fair (a : Answers) (k k' : Desk) : Prop where
  left : k.system = .steady a
  right : k'.system = .steady a

/-- Done at two desks on whose disks the paths see the same, it comes to the same result and makes the same changes. -/
def Twin {σ α : Type} (desk : σ → Desk) (a : Answers) (ps : List FilePath) (act : StateM σ α) : Prop :=
  ∀ s s', Fair a (desk s) (desk s') → Sees a ps (desk s).disk (desk s').disk →
    ∃ x t t', StateT.run act s = (x, t) ∧ StateT.run act s' = (x, t') ∧ Fair a (desk t) (desk t') ∧
      Both a (desk s).disk (desk s').disk (desk t).disk (desk t').disk

section Rules

variable {σ α β : Type} {desk : σ → Desk} {a : Answers} {ps : List FilePath}

theorem twin_pure (x : α) : Twin desk a ps (pure x) := fun s s' hfair h => ⟨x, s, s', rfl, rfl, hfair, Both.refl h⟩

theorem Twin.bind {act : StateM σ β} {f : β → StateM σ α} (hact : Twin desk a ps act) (hf : ∀ b, Twin desk a ps (f b)) :
    Twin desk a ps (act >>= f) := by
  intro s s' hfair h
  obtain ⟨b, t, t', hrun, hrun', hfair', hboth⟩ := hact s s' hfair h
  obtain ⟨x, u, u', hrest, hrest', hfair'', hboth'⟩ := hf b t t' hfair' (hboth.sees h)
  rw [StateT.run_bind, StateT.run_bind, hrun, hrun']
  exact ⟨x, u, u', hrest, hrest', hfair'', hboth.trans hboth'⟩

/-- What is done after looking at the disk, if it is the same for both disks. -/
theorem twin_get_bind {f : σ → StateM σ α}
    (h : ∀ s s', Sees a ps (desk s).disk (desk s').disk → f s' = f s ∧ Twin desk a ps (f s)) :
    Twin desk a ps (get >>= f) := by
  intro s s' hfair hs
  obtain ⟨heq, htwin⟩ := h s s' hs
  obtain ⟨x, t, t', hrun, hrun', hend⟩ := htwin s s' hfair hs
  exact ⟨x, t, t', hrun, (congrArg (StateT.run · s') heq).trans hrun', hend⟩

theorem Twin.bindExcept {act : ExceptT Failure (StateM σ) β} {f : β → ExceptT Failure (StateM σ) α}
    (hact : Twin desk a ps act.run) (hf : ∀ b, Twin desk a ps (f b).run) : Twin desk a ps (act >>= f).run := by
  rw [ExceptT.run_bind]
  refine hact.bind fun answer => ?_
  cases answer with
  | ok b => exact hf b
  | error m => exact twin_pure _

theorem run_tryCatch (act : ExceptT Failure (StateM σ) α) (f : Failure → ExceptT Failure (StateM σ) α) :
    (tryCatch act f).run = act.run >>= fun answer =>
      match answer with
      | .ok x => pure (.ok x)
      | .error m => (f m).run := by
  show (ExceptT.tryCatch act f).run = _
  unfold ExceptT.tryCatch
  refine bind_congr fun answer => ?_
  cases answer <;> rfl

theorem Twin.rescue {act : ExceptT Failure (StateM σ) α} {f : Failure → ExceptT Failure (StateM σ) α}
    (hact : Twin desk a ps act.run) (hf : ∀ m, Twin desk a ps (f m).run) : Twin desk a ps (tryCatch act f).run := by
  rw [run_tryCatch]
  refine hact.bind fun answer => ?_
  cases answer with
  | ok x => exact twin_pure _
  | error m => exact hf m

end Rules

/-- Trying again on both disks; the lines of the log and the numbers of attempts may differ. -/
theorem Sees.retry {α : Type} {a : Answers} {ps : List FilePath} {act : Answers → Disk → Except Failure α × Disk}
    (attempted : Attempted) (retries : Int) (hact : ∀ d e, Sees a ps d e → Agree a d e (act a d) (act a e)) {d e : Disk}
    (h : Sees a ps d e) (m n : Nat) :
    let r := retry attempted retries (Work.attempt (.steady a) act) (d, m)
    let r' := retry attempted retries (Work.attempt (.steady a) act) (e, n)
    r'.answer = r.answer ∧ Both a d e r.state.1 r'.state.1 := by
  have hattempt : ∀ d n, Work.attempt (.steady a) act (d, n) = ((act a d).1, (act a d).2, n + 1) := fun _ _ => rfl
  -- for any number of attempts made so far, which only the log shows
  have hfrom : ∀ left tried d e m n, Sees a ps d e →
      let r := retryFrom attempted (Work.attempt (.steady a) act) left tried (d, m)
      let r' := retryFrom attempted (Work.attempt (.steady a) act) left tried (e, n)
      r'.answer = r.answer ∧ Both a d e r.state.1 r'.state.1 := by
    intro left
    induction left with
    | zero =>
      intro tried d e m n h
      obtain ⟨answer, d', e', hd, he, hboth⟩ := hact d e h
      rw [retryFrom, retryFrom, hattempt, hattempt, hd, he]
      cases answer with
      | ok x => exact ⟨rfl, hboth⟩
      | error f =>
        dsimp only
        split <;> exact ⟨rfl, hboth⟩
    | succ left ih =>
      intro tried d e m n h
      obtain ⟨answer, d', e', hd, he, hboth⟩ := hact d e h
      rw [retryFrom, retryFrom, hattempt, hattempt, hd, he]
      cases answer with
      | ok x => exact ⟨rfl, hboth⟩
      | error f =>
        dsimp only
        split
        · exact ⟨rfl, hboth⟩
        · obtain ⟨heq, hboth'⟩ := ih (tried + 1) d' e' (m + 1) (n + 1) (hboth.sees h)
          exact ⟨heq, hboth.trans hboth'⟩
  exact hfrom _ _ d e m n h

namespace Work

variable {α β : Type} {a : Answers} {ps : List FilePath}

/-- Work that comes to the same on two disks on which the paths see the same. -/
abbrev Twin (a : Answers) (ps : List FilePath) (w : Work α) : Prop := Files.Twin id a ps w.run

theorem twin_ofExcept_bind {e : Except Failure β} {f : β → Work α} (h : ∀ b, e = .ok b → Twin a ps (f b)) :
    Twin a ps (ofExcept e >>= f) := by
  cases e with
  | ok b => exact h b rfl
  | error m => exact twin_pure _

theorem twin_disk_bind {f : Disk → Work α} (h : ∀ d e, Sees a ps d e → f e = f d ∧ Twin a ps (f d)) :
    Twin a ps (disk >>= f) :=
  twin_get_bind (f := fun k : Desk => (f k.disk).run) fun s s' hs =>
    (h s.disk s'.disk hs).imp_left (congrArg ExceptT.run)

theorem twin_log (level : Level) (text : String) : Twin a ps (log level text) :=
  fun _ _ hfair h => ⟨_, _, _, rfl, rfl, ⟨hfair.left, hfair.right⟩, Both.refl h⟩

theorem twin_retrying {operation path : String} {retries : Int} {act : Answers → Disk → Except Failure α × Disk}
    (h : ∀ d e, Sees a ps d e → Agree a d e (act a d) (act a e)) : Twin a ps (retrying operation path retries act) := by
  intro s s' hfair (hs : Sees a ps s.disk s'.disk)
  obtain ⟨heq, hboth⟩ := hs.retry ⟨operation, path⟩ retries h s.attempts s'.attempts
  have hrun : ∀ k : Desk, k.system = .steady a →
      let r := retry ⟨operation, path⟩ retries (attempt (.steady a) act) (k.disk, k.attempts)
      StateT.run (ExceptT.run (retrying operation path retries act)) k =
        (r.answer, { k with disk := r.state.1, log := k.log ++ r.lines, attempts := r.state.2 }) := by
    intro k hk
    show StateT.run (ofExcept (retry ⟨operation, path⟩ retries (attempt k.system act) (k.disk, k.attempts)).answer) _ = _
    rw [hk]
    cases (retry ⟨operation, path⟩ retries (attempt (.steady a) act) (k.disk, k.attempts)).answer <;> rfl
  rw [hrun s hfair.left, hrun s' hfair.right, heq]
  exact ⟨_, _, _, rfl, rfl, ⟨hfair.left, hfair.right⟩, hboth⟩

/-- Reading a source. -/
theorem twin_readSource {p : FilePath} (hp : p ∈ ps) (retries : Int) : Twin a ps (readSource p.text retries) :=
  twin_retrying fun d e h => ⟨d.readUnder a p.text >>= textOf, d, e, rfl, by rw [h.readUnder hp], Both.refl h⟩

/-- Writing a source. -/
theorem twin_writeSource {p : FilePath} (hp : p ∈ ps) (content : String) (retries : Int) :
    Twin a ps (writeSource p.text content retries) :=
  twin_retrying fun _ _ h => h.writeFile hp content.toUTF8

/-- Keeping a copy of a source. -/
theorem twin_keepBackup {r : FilePath} {root : Option String} (hr : r ∈ ps)
    (hcopy : ∀ p, backupPath r.text root = .ok p → p ∈ ps) (retries : Int) :
    Twin a ps (keepBackup r.text root retries) := by
  refine twin_ofExcept_bind fun p hp => ?_
  have hp := hcopy p hp
  refine twin_disk_bind fun d e h => ⟨by rw [h.find hp], ?_⟩
  refine twin_ofExcept_bind fun found _ => ?_
  split
  · exact (twin_log _ _).bindExcept fun _ => twin_pure _
  · refine Twin.bindExcept (twin_retrying fun d e h => h.copyFile hr hp) fun _ => ?_
    exact (twin_log _ _).bindExcept fun _ => twin_pure _

end Work

end FluentShift.Files
