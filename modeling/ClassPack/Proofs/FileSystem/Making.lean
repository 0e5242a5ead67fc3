import ClassPack.Proofs.FileSystem.Growth
import ClassPack.Proofs.Path.Segments
import ClassPack.Proofs.Steps

/-!
# Making — directories made on the way that a text takes

* `MadeOnWay text fs gs` — directories were made, each at a place on the way that a text takes:
  `createDirs_made`, whether the call goes well or not;
* `Steady fs text` — wherever a text steps up, it steps up from a place that is there. What is made
  on the way of such a text stands at or above the place that it leads to (`prefix_of_onWay`);
* `createDirs_raised` — a call that goes well leaves exactly the directories down to that place.
-/

namespace ClassPack
namespace FileSystem

variable {fs gs hs : FileSystem} {p q t : Place} {text : Path}

/-! ## Naming an entry -/

theorem locateFrom_entry {links left : Nat} {segments : List Segment} {slash slash' : Bool}
    {dir : Place} {n : Name} (h : fs.locateFrom links p segments slash =
      .ok (.entry dir n slash', left)) :
    ∃ before, segments = before ++ [.name n] ∧ fs.follow links p before = .ok ⟨dir, left⟩ ∧
      fs.at? dir = some .directory ∧ exceeds n.bytes.length fs.limits.name = false ∧
      slash' = slash := by
  unfold locateFrom at h
  split at h
  · cases h
  rename_i last final
  have whole : segments = segments.dropLast ++ [last] :=
    (List.dropLast_append_getLast? last final).symm
  obtain ⟨m, way, h⟩ := ok_of_bind h
  -- A last step that is no name gives a place, not an entry.
  cases last with
  | here =>
      obtain ⟨_, _, h⟩ := ok_of_bind h
      cases h
  | up =>
      obtain ⟨_, _, h⟩ := ok_of_bind h
      cases h
  | name n' =>
      obtain ⟨_, entered, h⟩ := ok_of_bind h
      split at h
      · cases h
      · rename_i short
        cases h
        exact ⟨_, whole, way, at?_of_enterable entered, by simpa using short, rfl⟩

theorem locate_entry {slash : Bool} {dir : Place} {n : Name}
    (h : fs.locate text = .ok (.entry dir n slash)) :
    ∃ before left, text.segments = before ++ [.name n] ∧
      fs.follow fs.limits.links (text.origin fs.workingDir) before = .ok ⟨dir, left⟩ ∧
      fs.at? dir = some .directory ∧ exceeds n.bytes.length fs.limits.name = false ∧
      slash = text.endsInSlash := by
  unfold locate at h
  obtain ⟨_, _, h⟩ := ok_of_bind h
  obtain ⟨⟨target, left⟩, found, h⟩ := ok_of_bind h
  cases h
  obtain ⟨before, steps, way, rest⟩ := locateFrom_entry (refused_ok found)
  exact ⟨before, left, steps, way, rest⟩

/-! ## Making directories -/

/-- A place that steps of a text lead to, the last of them a name. -/
def OnWay (fs : FileSystem) (text : Path) (q : Place) : Prop :=
  ∃ before n rest, text.segments = before ++ .name n :: rest ∧
    fs.Leads (text.origin fs.workingDir) (before ++ [.name n]) q

theorem Grows.onWay_iff (h : fs.Grows gs) : gs.OnWay text q ↔ fs.OnWay text q := by
  unfold OnWay
  rw [h.workingDir]
  simp only [h.leads_iff]

/-- The way of the text above is part of the way. -/
theorem OnWay.of_parent? {upper : Path} (up : Path.parent? text = some upper)
    (onWay : fs.OnWay upper q) : fs.OnWay text q := by
  obtain ⟨before, n, rest, steps, way⟩ := onWay
  rcases Path.segments_of_parent? up with none_ | ⟨⟨more, whole⟩, absolute⟩
  · simp [none_, Path.segments_nil] at steps
  · refine ⟨before, n, rest ++ more, by simp [← whole, steps], ?_⟩
    rwa [show text.origin fs.workingDir = upper.origin fs.workingDir by
      simp [Path.origin, absolute]]

/-- Directories were made, each on the way that a text takes. -/
structure MadeOnWay (text : Path) (fs gs : FileSystem) : Prop where
  workingDir : gs.workingDir = fs.workingDir
  limits : gs.limits = fs.limits
  at? : ∀ q, gs.at? q = fs.at? q ∨ fs.at? q = none ∧ gs.at? q = some .directory ∧ fs.OnWay text q

namespace MadeOnWay

theorem refl (text : Path) (fs : FileSystem) : MadeOnWay text fs fs := ⟨rfl, rfl, fun _ => .inl rfl⟩

theorem grows (h : MadeOnWay text fs gs) : fs.Grows gs where
  workingDir := h.workingDir
  limits := h.limits
  directory {q} there := by
    rcases h.at? q with same | ⟨_, new, _⟩
    · rw [same, there]
    · exact new
  file {q content} there := by
    rcases h.at? q with same | ⟨missing, _, _⟩
    · exact ⟨content, by rw [same, there]⟩
    · simp [there] at missing
  link {q target} there := by
    rcases h.at? q with same | ⟨missing, _, _⟩
    · rw [same, there]
    · simp [there] at missing
  noLink {q target} there := by
    rcases h.at? q with same | ⟨_, new, _⟩
    · rw [← same, there]
    · simp [new] at there

theorem trans (h : MadeOnWay text fs gs) (h' : MadeOnWay text gs hs) : MadeOnWay text fs hs where
  workingDir := h'.workingDir.trans h.workingDir
  limits := h'.limits.trans h.limits
  at? q := by
    rcases h'.at? q with same' | ⟨missing', new', before, n, rest, steps, way⟩
    · rcases h.at? q with same | ⟨missing, new, onWay⟩
      · exact .inl (same'.trans same)
      · exact .inr ⟨missing, same'.trans new, onWay⟩
    · rcases h.at? q with same | ⟨_, new, _⟩
      · -- The links are those of before, so the second way is a way of before, too.
        refine .inr ⟨same.symm.trans missing', new', before, n, rest, steps, ?_⟩
        rw [h.workingDir] at way
        exact h.grows.leads_iff.1 way
      · simp [new] at missing'

end MadeOnWay

theorem at?_put_of_free {dir : Place} {n : Name} {e : Entry} (above : fs.at? dir = some .directory)
    (free : fs.at? (dir ++ [n]) ≠ some .directory)
    (short : exceeds n.bytes.length fs.limits.name = false) (q : Place) :
    (fs.put dir n e).at? q = if q = dir ++ [n] then some e else fs.at? q := by
  have noDir : fs.isDirectoryAt (dir ++ [n]) = false := by
    rw [← Bool.not_eq_true, isDirectoryAt_iff]
    exact free
  simp [at?_put, isFree, isDirectoryAt_iff.2 above, noDir, short]

theorem makeDir_ok (h : fs.makeDir text = .ok gs) :
    ∃ dir n, gs = fs.put dir n .directory ∧ fs.locate text = .ok (.entry dir n text.endsInSlash) ∧
      fs.at? (dir ++ [n]) = none := by
  unfold makeDir at h
  obtain ⟨target, found, h⟩ := ok_of_bind h
  cases target with
  | node place last => cases h
  | entry dir n slash =>
      obtain ⟨_, _, _, _, _, _, rfl⟩ := locate_entry found
      simp only at h
      split at h
      · cases h
      · rename_i missing
        cases h
        exact ⟨dir, n, rfl, found, missing⟩

theorem makeDir_made {upper : Path} (steps : upper.segments <+: text.segments)
    (origin : upper.isAbsolute = text.isAbsolute) (h : fs.makeDir upper = .ok gs) :
    MadeOnWay text fs gs := by
  obtain ⟨dir, n, rfl, found, missing⟩ := makeDir_ok h
  obtain ⟨before, left, split, way, above, short, _⟩ := locate_entry found
  have view := at?_put_of_free (e := .directory) above (by simp [missing]) short
  refine ⟨by simp, by simp, fun q => ?_⟩
  rw [view q]
  split
  · rename_i here
    subst here
    obtain ⟨rest, whole⟩ := steps
    refine .inr ⟨missing, rfl, before, n, rest, by rw [← whole, split]; simp, ?_⟩
    have start : text.origin fs.workingDir = upper.origin fs.workingDir := by
      simp [Path.origin, origin]
    rw [start]
    exact (Leads.of_follow way).append (.name (by simp [missing]) (.done _))
  · exact .inl rfl

theorem createChain_made {chain : List Path}
    (above : ∀ upper ∈ chain, upper.segments <+: text.segments ∧ upper.isAbsolute = text.isAbsolute)
    (fs : FileSystem) : MadeOnWay text fs (leftBy (createChain chain fs)) := by
  induction chain generalizing fs with
  | nil => exact .refl text fs
  | cons upper more ih =>
      have own := above upper (List.mem_cons_self ..)
      have others := fun fs => ih (fun u there => above u (List.mem_cons_of_mem _ there)) fs
      unfold createChain
      split
      · rename_i made h
        exact makeDir_made own.1 own.2 h
      · -- What is missing above comes first, and then one more attempt.
        have first := others fs
        split
        · rename_i e partly h
          simpa [h] using first
        · rename_i partly h
          rw [h] at first
          split
          · rename_i made h'
            exact first.trans (makeDir_made own.1 own.2 h')
          · split <;> exact first
      · split <;> exact .refl text fs

theorem createDirs_made (text : Path) (fs : FileSystem) :
    MadeOnWay text fs (leftBy (createDirs text fs)) :=
  createChain_made (fun _ there => Path.segments_of_mem_ancestors there) fs

theorem createDirs_parent_made {upper : Path} (h : Path.parent? text = some upper)
    (fs : FileSystem) : MadeOnWay text fs (leftBy (createDirs upper fs)) :=
  createChain_made (fun _ there => Path.segments_of_mem_ancestors_parent? h there) fs

/-! ## Steady texts -/

/-- A text that is read from a place that is there, and steps up from such places only. -/
structure Steady (fs : FileSystem) (text : Path) : Prop where
  starts : fs.Starts text
  up : ∀ before rest, text.segments = before ++ .up :: rest →
    ∃ m, fs.follow fs.limits.links (text.origin fs.workingDir) before = .ok m

theorem Starts.joinText {root path : String} (starts : fs.Starts (Utf8.encode root))
    (descends : Path.Descends (Utf8.encode path)) :
    fs.Starts (Utf8.encode (joinText root path)) := by
  unfold Starts
  rw [encode_joinText, Path.origin_join descends.relative]
  exact starts

namespace Steady

theorem of_within (h : fs.Within gs) (steady : fs.Steady text) : gs.Steady text where
  starts := steady.starts.of_within h
  up before rest steps := by
    obtain ⟨m, way⟩ := steady.up before rest steps
    refine ⟨m, ?_⟩
    rw [h.limits, h.workingDir]
    exact follow_of_within h steady.starts way

theorem joinText {root path : String} (steady : fs.Steady (Utf8.encode root))
    (descends : Path.Descends (Utf8.encode path)) :
    fs.Steady (Utf8.encode (joinText root path)) where
  starts := steady.starts.joinText descends
  up before rest steps := by
    rw [encode_joinText] at steps ⊢
    rw [Path.origin_join descends.relative]
    rw [Path.segments_join descends.relative] at steps
    -- The step up is one of the first part, as the second has none.
    rcases List.append_eq_append_iff.1 steps with ⟨between, front, back⟩ | ⟨between, front, back⟩
    · exact absurd (by simp [back]) descends.noUp
    · cases between with
      | nil =>
          have back : Path.segments (Utf8.encode path) = .up :: rest := by simpa using back.symm
          exact absurd (by simp [back]) descends.noUp
      | cons step between =>
          obtain ⟨rfl, rfl⟩ := List.cons.inj back
          exact steady.up before between front

end Steady

/-- Below a place without links, what is joined to its text leads straight down. -/
theorem LeadsTo.join {more : Path} (leads : fs.LeadsTo text q) (descends : more.Descends)
    (plain : ∀ r target, fs.at? (q ++ r) ≠ some (.link target)) :
    fs.LeadsTo (text.join more) (q ++ Segment.names more.segments) := by
  unfold LeadsTo
  rw [Path.origin_join descends.relative, Path.segments_join descends.relative]
  exact leads.append (.of_plain plain descends.noUp)

theorem LeadsTo.eq_of_join {base more : String} {d : Place}
    (h : fs.LeadsTo (Utf8.encode (ClassPack.joinText base more)) q)
    (leads : fs.LeadsTo (Utf8.encode base) d) (descends : Path.Descends (Utf8.encode more))
    (plain : ∀ r target, fs.at? (d ++ r) ≠ some (.link target)) :
    q = d ++ Segment.names (Path.segments (Utf8.encode more)) := by
  have := leads.join descends plain
  rw [← encode_joinText] at this
  exact h.unique this

/-- A steady text does not step up again from a place that is missing. -/
theorem Steady.noUp_of_missing {before rest : List Segment} {n : Name} (steady : fs.Steady text)
    (steps : text.segments = before ++ .name n :: rest)
    (way : fs.Leads (text.origin fs.workingDir) (before ++ [.name n]) q)
    (missing : fs.at? q = none) : Segment.up ∉ rest := by
  intro up
  obtain ⟨between, later, rfl⟩ := List.append_of_mem up
  obtain ⟨m, arrive⟩ := steady.up (before ++ .name n :: between) later (by simp [steps])
  -- Whoever gets to the step up comes by the missing place.
  obtain ⟨m', front, _⟩ :=
    follow_prefix (s := before ++ [.name n]) (t := between) (by simpa using arrive)
  obtain rfl : m'.place = q := (Leads.of_follow front).unique way
  exact at?_ne_none_of_follow steady.starts front missing

/-- From a place that is missing a steady text only goes down. -/
theorem leads_of_onWay (steady : fs.Steady text) (way : fs.OnWay text q)
    (missing : fs.at? q = none) : ∃ t, fs.LeadsTo text t ∧ q <+: t := by
  obtain ⟨before, n, rest, steps, way⟩ := way
  have noUp := steady.noUp_of_missing steps way missing
  have plain : ∀ r target, fs.at? (q ++ r) ≠ some (.link target) := fun r target => by
    simp [at?_append_of_missing missing r]
  refine ⟨q ++ Segment.names rest, ?_, List.prefix_append ..⟩
  rw [LeadsTo, steps, show before ++ .name n :: rest = (before ++ [.name n]) ++ rest by simp]
  exact way.append (.of_plain plain noUp)

theorem prefix_of_onWay (steady : fs.Steady text) (way : fs.OnWay text q)
    (missing : fs.at? q = none) (leads : fs.LeadsTo text t) : q <+: t := by
  obtain ⟨t', leads', above⟩ := leads_of_onWay steady way missing
  exact leads'.unique leads ▸ above

/-- Nothing is made on the way to what is there. -/
theorem MadeOnWay.eq_of_there (made : MadeOnWay text fs gs) (steady : fs.Steady text)
    (leads : fs.LeadsTo text t) (there : fs.at? t ≠ none) : gs = fs := by
  refine ext_at? (fun q => ?_) made.workingDir made.limits
  rcases made.at? q with kept | ⟨missing, _, onWay⟩
  · exact kept
  · exact absurd missing (at?_ne_none_of_above there (prefix_of_onWay steady onWay missing leads))

/-- A text that arrives where its steps begin at something steps up only from what is there. -/
theorem Arrives.steady (starts : fs.Starts text) (arrives : fs.Arrives text t) :
    fs.Steady text where
  starts := starts
  up before rest steps := by
    obtain ⟨links, resolved⟩ := arrives
    have way := (resolve_eq_ok_iff.1 resolved).2
    rw [Path.steps, steps, List.append_assoc] at way
    obtain ⟨m, front, _⟩ := follow_prefix way
    exact ⟨m, front⟩

/-! ## The directory asked for -/

/-- Once a directory has been made, its text leads to it. -/
theorem isDir_of_makeDir (h : fs.makeDir text = .ok gs) (starts : fs.Starts text) :
    gs.isDir text = true := by
  have grown := (makeDir_made (List.prefix_refl _) rfl h).grows
  obtain ⟨dir, n, rfl, found, missing⟩ := makeDir_ok h
  obtain ⟨before, left, steps, way, above, short, _⟩ := locate_entry found
  have view := at?_put_of_free (e := .directory) above (by simp [missing]) short
  have there : (fs.put dir n .directory).at? (dir ++ [n]) = some .directory := by simp [view]
  -- The way to the directory above is what it was, and the new entry is one step further.
  have front := follow_of_within grown.toWithin starts way
  refine isDir_iff.2 ⟨dir ++ [n], ⟨left, resolve_eq_ok_iff.2 ⟨?_, ?_⟩⟩, there⟩
  · obtain ⟨_, fit, _⟩ := ok_of_bind found
    rw [grown.vet]
    exact fit
  · have last : (fs.put dir n .directory).scan dir [.name n] = .ok (.arrived (dir ++ [n])) := by
      simp [scan, enterable, grown.directory above, short, there]
    have final : (fs.put dir n .directory).scan dir
        (.name n :: if text.endsInSlash then [.here] else []) =
        .ok (.arrived (dir ++ [n])) := by
      have :=
        scan_append (fs.put dir n .directory) dir [.name n]
        (if text.endsInSlash then [.here] else [])
      rw [last] at this
      rw [List.singleton_append] at this
      rw [this]
      show scan _ (dir ++ [n]) (if text.endsInSlash then [.here] else []) = _
      split
      · simp [scan, readable, there]
      · simp [scan]
    rw [Path.steps, steps, List.append_assoc, follow_append]
    rw [put_limits, put_workingDir] at *
    rw [front]
    simp only [List.singleton_append]
    rw [follow, final]

/-- Whenever `createDirs` succeeds, the text leads to a directory. -/
theorem isDir_of_createDirs (some_ : text ≠ []) (starts : fs.Starts text)
    (h : createDirs text fs = .ok () gs) : gs.isDir text = true := by
  obtain ⟨above, chain⟩ := Path.ancestors_eq_cons some_
  have upper : ∀ u ∈ above, u.segments <+: text.segments ∧
      u.isAbsolute = text.isAbsolute := fun u there =>
    Path.segments_of_mem_ancestors (by rw [chain]; exact List.mem_cons_of_mem _ there)
  unfold createDirs at h
  rw [chain] at h
  unfold createChain at h
  split at h
  · -- It was made at the first attempt.
    rename_i made first
    cases h
    exact isDir_of_makeDir first starts
  · split at h
    · simp at h
    · rename_i partly made
      have grown : fs.Grows partly := by
        simpa [made] using (createChain_made upper fs).grows
      split at h
      · -- It was made once those above it were there.
        rename_i made' again
        cases h
        exact isDir_of_makeDir again (starts.of_within grown.toWithin)
      · split at h
        · rename_i there
          cases h
          exact there
        · simp at h
  · -- It could not be made, but there is one already.
    split at h
    · rename_i there
      cases h
      exact there
    · simp at h

/-- The directories from the root down to a place are there, and all else is as it was. -/
structure Raised (t : Place) (fs gs : FileSystem) : Prop extends Grows fs gs where
  at? : ∀ q, gs.at? q = if q <+: t then some .directory else fs.at? q

/-- A call that goes well leaves exactly the directories down to where its text leads. -/
theorem createDirs_raised (some_ : text ≠ []) (steady : fs.Steady text)
    (h : createDirs text fs = .ok () gs) : ∃ t, gs.Arrives text t ∧ Raised t fs gs := by
  have made : MadeOnWay text fs gs := by
    simpa [h] using createDirs_made text fs
  obtain ⟨t, arrive, there⟩ := isDir_iff.1 (isDir_of_createDirs some_ steady.starts h)
  have leads : fs.LeadsTo text t := made.grows.leadsTo_iff.1 arrive.leads
  refine ⟨t, arrive, made.grows, fun q => ?_⟩
  split
  · -- Above a directory there are directories only.
    rename_i above
    by_cases other : q = t
    · rw [other, there]
    · exact at?_of_above (by simp [there]) above other
  · rename_i aside
    rcases made.at? q with same | ⟨missing, _, onWay⟩
    · exact same
    · exact absurd (prefix_of_onWay steady onWay missing leads) aside

end FileSystem
end ClassPack
