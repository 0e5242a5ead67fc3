import ClassPack.Proofs.FileSystem.Repeating
import ClassPack.Proofs.StagedTree

/-!
# Rechecking — a configuration checked again after a run

* `leads_moves_iff` — the dots of a text do not change where it leads, so that texts that are
  compared by components can be compared by where they lead;
* `Prepared.accepted_again` — a configuration that is accepted once the old output directory is
  gone is accepted when the new one is there, if no file for the working directory goes where the
  source reaches.
-/

namespace ClassPack

open FileSystem

variable {c : Config} {start mid fs gs : FileSystem} {p q d st : Place} {s : List Segment}
  {text : Path}

namespace FileSystem

/-! ## Moves -/

theorem leads_moves_iff : fs.Leads p text.moves q ↔ fs.Leads p text.segments q := leads_filter_iff

/-- Down to a directory there are no links. -/
theorem follow_of_directory (links : Nat) (there : fs.at? q = some .directory) :
    fs.follow links [] (q.map .name) = .ok ⟨q, links⟩ := by
  refine follow_of_plain (p := []) links (fun r above target isLink => ?_) (by simp [there])
  by_cases here : r = q
  · simp [here, there] at isLink
  · have directory : fs.at? r = some .directory := at?_of_above (by simp [there]) above here
    simp [directory] at isLink

theorem leads_of_directory (there : fs.at? q = some .directory) : fs.Leads [] (q.map .name) q :=
  Leads.of_follow (follow_of_directory 0 there)

/-- Whoever takes all steps comes, after any part of the moves, by a place that is there. -/
theorem stands_of_follow {links : Nat} {m : Standing} {front back : List Segment}
    (start : fs.at? p ≠ none) (way : fs.follow links p s = .ok m)
    (parts : s.filter (· ≠ .here) = front ++ back) : ∃ q, fs.at? q ≠ none ∧ fs.Leads p front q := by
  obtain ⟨l, r, rfl, rfl, _⟩ := List.filter_eq_append_iff.1 parts
  obtain ⟨m', way', _⟩ := follow_prefix way
  exact ⟨m'.place, at?_ne_none_of_follow start way', leads_filter_iff.2 (Leads.of_follow way')⟩

/-- Steps down are taken from directories only. -/
theorem at?_of_follow_down {links : Nat} {m : Standing} (start : fs.at? p ≠ none)
    (way : fs.follow links p s = .ok m) (noUp : Segment.up ∉ s) (some_ : s ≠ []) :
    fs.at? p = some .directory := by
  obtain ⟨step, rest, rfl⟩ := List.exists_cons_of_ne_nil some_
  cases step with
  | here => exact at?_of_readable start (follow_here_ok way).1
  | up => exact absurd (List.mem_cons_self ..) noUp
  | name n => exact at?_of_enterable (follow_name_ok way).1

/-- What a directory's text is resolved to leads to the directory, step by step. -/
theorem follow_resolved {path : String} (starts : fs.Starts (Utf8.encode path))
    (isDir : fs.isDir (Utf8.encode path) = true) : ∃ p m, fs.LeadsTo (Utf8.encode path) p ∧
    Utf8.encode (Config.resolved fs path) ≠ [] ∧
      fs.Starts (Utf8.encode (Config.resolved fs path)) ∧ m.place = p ∧
      fs.follow fs.limits.links (Path.origin (Utf8.encode (Config.resolved fs path)) fs.workingDir)
        (Path.segments (Utf8.encode (Config.resolved fs path))) = .ok m := by
  obtain ⟨p, arrives, directory⟩ := isDir_iff.1 isDir
  refine ⟨p, ?_⟩
  unfold Config.resolved
  cases canonical : fs.canonical? path with
  | none =>
      -- The text stays as it is.
      obtain ⟨links, resolved⟩ := arrives
      obtain ⟨fit, whole⟩ := resolve_eq_ok_iff.1 resolved
      obtain ⟨m, way, stay⟩ := follow_prefix whole
      have some_ : Utf8.encode path ≠ [] := fun none_ => by simp [vet, none_] at fit
      exact ⟨m, .of_resolve resolved, some_, starts,
        congrArg Standing.place (follow_slash_ok stay).symm, way⟩
  | some found =>
      obtain ⟨p', leads, spelled, _⟩ := arrives_of_canonical? canonical
      obtain rfl := leads.unique arrives.leads
      refine ⟨⟨p', fs.limits.links⟩, leads, ?_, ?_, rfl, ?_⟩
      · rw [Option.getD_some, spelled]
        simp [Place.path]
      · rw [Option.getD_some, spelled]
        exact starts_of_absolute (Path.isAbsolute_path p')
      · rw [Option.getD_some, spelled, Path.segments_path, Path.origin,
          if_pos (Path.isAbsolute_path p')]
        exact follow_of_directory _ directory

end FileSystem

namespace Config.Prepared

variable (h : c.Prepared start mid fs d st) (grown : mid.Grows gs)

include h grown

/-- The working directory's text leads to a directory. -/
theorem workingDir_directory (leads : gs.LeadsTo (Utf8.encode c.workingDir) p)
    (named : ∃ part ∈ Path.components (Utf8.encode c.outDir), part.isName = true) :
    gs.at? p = some .directory := by
  obtain ⟨links, resolved⟩ := h.arrives grown
  have noZero := zero_not_mem_of_vet (resolve_eq_ok_iff.1 resolved).1
  have some_ : Path.segments (Utf8.encode c.outDir) ≠ [] := fun none_ =>
    Path.names_ne_nil named (fun zero => noZero (mem_joinText h.sound.outDir.relative zero))
    (by simp [none_])
  have starts : gs.Starts (Utf8.encode c.workingDir) :=
    h.anchored.workingDir.starts.of_within (h.bare_grows grown).toWithin
  have way := (resolve_eq_ok_iff.1 resolved).2
  unfold Config.destination at way
  rw [Path.steps, Config.layout, encode_joinText, Path.origin_join h.sound.outDir.relative,
    Path.segments_join h.sound.outDir.relative, List.append_assoc] at way
  obtain ⟨m, front, back⟩ := follow_prefix way
  obtain ⟨m', down, _⟩ := follow_prefix back
  obtain rfl := (Leads.of_follow front).unique leads
  exact at?_of_follow_down (at?_ne_none_of_follow starts front) down h.sound.outDir.noUp some_

section Come

variable {found : String} (spelled : Utf8.encode found = q.path)
  (directory : gs.at? q = some .directory)
  (isDir : (c.cleared start).isDir (Utf8.encode c.sourceRoot) = true)

include spelled directory isDir

/-- A place whose text starts with the source root's is within its reach. -/
theorem reaches_of_isInside
    (inside : Config.isInside found (Config.resolved (c.cleared start) c.sourceRoot) = true) :
    c.Reaches (c.cleared start) q := by
  have bare := h.bare_grows grown
  obtain ⟨p, m, leads, some_, _, rfl, way⟩ := follow_resolved h.anchored.sourceRoot isDir
  unfold Config.isInside at inside
  rw [spelled] at inside
  have absolute := Path.isAbsolute_of_startsWith inside some_
  rw [Path.isAbsolute_path] at absolute
  -- The names that both texts begin with lead from the root to the source root.
  obtain ⟨rest, split⟩ := Path.moves_prefix_of_startsWith inside
  rw [Path.moves_path] at split
  obtain ⟨root, below, rfl, names, _⟩ := List.map_eq_append_iff.1 split.symm
  have down : (c.cleared start).Leads [] (root.map .name) m.place := by
    have toward := leads_moves_iff.2 (Leads.of_follow way)
    rwa [Path.origin, if_pos absolute.symm, ← names] at toward
  have there : gs.at? root = some .directory := by
    by_cases all : below = []
    · simpa [all] using directory
    · exact at?_of_above (q := root ++ below) (by simp [directory]) (List.prefix_append ..)
        (by simpa using all)
  obtain rfl := down.unique (bare.leads_iff.1 (leads_of_directory there))
  exact Config.Reaches.of_prefix (.root leads) (List.prefix_append ..)

/-- The source root does not lie where the output directory comes to be. -/
theorem not_isInside_destination (leads : gs.LeadsTo (Utf8.encode c.workingDir) q) :
    Config.isInside (Config.resolved (c.cleared start) c.sourceRoot) (joinText found c.outDir) =
      false := by
  have bare := h.bare_grows grown
  have relative := h.sound.outDir.relative
  obtain ⟨p, m, _, _, starts, _, way⟩ := follow_resolved h.anchored.sourceRoot isDir
  by_contra inside
  have inside : Path.startsWith (Utf8.encode (Config.resolved (c.cleared start) c.sourceRoot))
      (q.path.join (Utf8.encode c.outDir)) = true := by
    rw [← spelled, ← encode_joinText]
    simpa [Config.isInside] using inside
  have absolute := Path.isAbsolute_of_startsWith inside (Path.join_ne_nil _ h.sound.outDir_ne_nil)
  rw [Path.isAbsolute_join relative, Path.isAbsolute_path] at absolute
  obtain ⟨rest, split⟩ := Path.moves_prefix_of_startsWith inside
  rw [Path.moves_join relative, Path.moves_path] at split
  obtain ⟨t, stands, toward⟩ := stands_of_follow starts way split.symm
  rw [Path.origin, if_pos absolute] at toward
  -- The same steps lead to the output directory, which was not there.
  have output : (c.cleared start).Leads q (Path.moves (Utf8.encode c.outDir)) d := by
    have whole := h.outer.leads
    unfold LeadsTo Config.destination at whole
    rw [Config.layout, encode_joinText, Path.origin_join relative,
      Path.segments_join relative] at whole
    obtain ⟨m', front, back⟩ := whole.split
    obtain rfl := front.unique (bare.leadsTo_iff.1 leads)
    exact leads_moves_iff.2 back
  obtain rfl := toward.unique ((bare.leads_iff.1 (leads_of_directory directory)).append output)
  exact stands h.outer.missing

end Come

/-- If the working directory has come to be there, the steps of its text could not be taken
before. -/
theorem not_follow_of_come (leads : gs.LeadsTo (Utf8.encode c.workingDir) q)
    (directory : gs.at? q = some .directory)
    (come : gs.canonical? c.workingDir ≠ (c.cleared start).canonical? c.workingDir) (m : Standing) :
    (c.cleared start).follow (c.cleared start).limits.links
      (Path.origin (Utf8.encode c.workingDir) (c.cleared start).workingDir)
      (Path.segments (Utf8.encode c.workingDir)) ≠ .ok m := by
  intro way
  have bare := h.bare_grows grown
  have starts := h.anchored.workingDir.starts
  obtain rfl : m.place = q := (Leads.of_follow way).unique (bare.leadsTo_iff.1 leads)
  have stands : (c.cleared start).at? m.place ≠ none := at?_ne_none_of_follow starts way
  have there := (bare.missing_or_directory directory).resolve_left stands
  refine come (canonical?_eq_of_follow (m := m) bare.toWithin starts ?_)
  rw [Path.steps, follow_append, way]
  cases Path.endsInSlash (Utf8.encode c.workingDir) with
  | true => simp [follow, scan, readable, there]
  | false => exact follow_nil ..

/-- A working directory that was not there has not come to be within reach of the source root: the
files of the manifest would have been delivered there. -/
theorem not_reaches_of_come (leads : gs.LeadsTo (Utf8.encode c.workingDir) q)
    (directory : gs.at? q = some .directory)
    (come : gs.canonical? c.workingDir ≠ (c.cleared start).canonical? c.workingDir)
    (beyond : ∀ t, c.Delivers start t → ¬ c.Reaches (c.cleared start) t)
    (delivered : ∃ f ∈ c.auxFiles, f.placement = .workingDir ∧
      ∃ t, gs.LeadsTo (Utf8.encode (joinText c.workingDir f.target)) t) :
    ¬ c.Reaches (c.cleared start) q := by
  intro reach
  have bare := h.bare_grows grown
  obtain ⟨f, member, placed, t, toward⟩ := delivered
  have descends := h.sound.target f member
  have toward := bare.leadsTo_iff.1 toward
  refine beyond t ⟨f, member, placed, ?_, toward⟩ ?_
  · -- What is read below the working directory could not be read before.
    by_contra same
    unfold isSameFile at same
    split at same
    · rename_i _ canonical
      obtain ⟨m, way, _⟩ := follow_of_canonical? canonical
      rw [encode_joinText, Path.steps, Path.origin_join descends.relative,
        Path.segments_join descends.relative, List.append_assoc] at way
      obtain ⟨m', front, _⟩ := follow_prefix way
      exact h.not_follow_of_come grown leads directory come m' front
    · simp at same
  · unfold LeadsTo at toward
    rw [encode_joinText, Path.origin_join descends.relative,
      Path.segments_join descends.relative] at toward
    obtain ⟨m, front, back⟩ := toward.split
    obtain rfl := front.unique (bare.leadsTo_iff.1 leads)
    exact reach.of_leads back descends.noUp

/-- A configuration that is accepted once the old output directory is gone is accepted when the new
one is there. -/
theorem accepted_again (accepted : c.validate (c.cleared start) = .ok ())
    (beyond : ∀ t, c.Delivers start t → ¬ c.Reaches (c.cleared start) t)
    (delivered : ∃ f ∈ c.auxFiles, f.placement = .workingDir ∧
      ∃ t, gs.LeadsTo (Utf8.encode (joinText c.workingDir f.target)) t) :
    c.validate gs = .ok () := by
  have bare := h.bare_grows grown
  have starts := h.anchored.sourceRoot
  have starts' := h.anchored.workingDir.starts
  obtain ⟨isDir, outside, outDir, apart, _⟩ := Config.checks_of_validate accepted
  -- The source root's text is resolved as before.
  obtain ⟨p, ⟨links, arrives⟩, _⟩ := isDir_iff.1 isDir
  have source : Config.resolved gs c.sourceRoot =
      Config.resolved (c.cleared start) c.sourceRoot := by
    unfold Config.resolved
    rw [canonical?_eq_of_follow bare.toWithin starts (resolve_eq_ok_iff.1 arrives).2]
  have isDir' := isDir_of_within bare.toWithin starts isDir
  by_cases working : gs.canonical? c.workingDir = (c.cleared start).canonical? c.workingDir
  · -- And so is the working directory's.
    have working : Config.resolved gs c.workingDir =
        Config.resolved (c.cleared start) c.workingDir := by
      rw [Config.resolved, working, Config.resolved]
    exact Config.validate_of_checks accepted isDir' (by rwa [source, working])
      (by rwa [source, working])
  -- The working directory was not there, and now it is.
  obtain ⟨found, canonical⟩ : ∃ found, gs.canonical? c.workingDir = some found := by
    refine Option.ne_none_iff_exists'.1 fun none_ => ?_
    cases before : (c.cleared start).canonical? c.workingDir with
    | none => exact working (none_.trans before.symm)
    | some found => simp [canonical?_of_within bare.toWithin starts' before] at none_
  have resolved : Config.resolved gs c.workingDir = found := by
    rw [Config.resolved, canonical, Option.getD_some]
  obtain ⟨q, leads, spelled, _⟩ := arrives_of_canonical? canonical
  have directory := h.workingDir_directory grown leads (named_of_checkRelative outDir)
  refine Config.validate_of_checks accepted isDir' ?_ ?_
  · rw [resolved, source]
    by_contra inside
    have reach := h.reaches_of_isInside grown spelled directory isDir (by simpa using inside)
    exact h.not_reaches_of_come grown leads directory (fun same => working same) beyond
      delivered reach
  · rw [resolved, source]
    exact h.not_isInside_destination grown spelled directory isDir leads

end Config.Prepared

end ClassPack
