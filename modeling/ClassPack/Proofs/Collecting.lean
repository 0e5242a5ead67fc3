import ClassPack.Proofs.Delivering
import ClassPack.Proofs.Pruning

/-!
# Collecting — found files are copied one by one, and none gets in the way of another

* `Collected targetRoot copied tried fs gs` — where anything can have changed once copies were
  tried: `collected_of_copyAll`, if all went well, and `copyAll_error`, which of them failed;
* `Separate fs sourceRoot targetRoot` — nothing that is reached from the source root lies where the
  target root leads, and there are no links there. Every path then has a place of its own:
  `Separate.eq_of_target`, `Separate.not_target`. So what was copied once stays, and so does what it
  was copied from: `read?_of_copyAll`;
* `collect_copies_in_turn` — a collection copies all that was found, or what comes before the first
  file that fails (`Received`). Into an empty directory all can be copied whose texts are not too
  long (`copyAll_ok_iff`);
* `collect_too_long` — and no others can, and directories can come that are above no copy.
-/

namespace ClassPack

open FileSystem

variable {sourceRoot targetRoot path path' : String}
  {paths copied copied' tried tried' : List String} {fs gs hs : FileSystem} {q t : Place}
  {names names' : Place} {content : Content} {w w' w₁ : Workshop} {e : Failure}
  {pattern : ArtifactPattern}

/-! ## Where anything changes -/

/-- Copies to paths below a target root were tried, and some of them made. A place is as it was, or
a directory was made there for a target that was tried, or the target of a copy leads there. -/
structure Collected (targetRoot : String) (copied tried : List String) (fs gs : FileSystem) : Prop
    extends Grows fs gs where
  at? : ∀ q, gs.at? q = fs.at? q ∨
    (∃ path ∈ tried, MadeFor (Utf8.encode (joinText targetRoot path)) fs gs q) ∨
    ∃ path ∈ copied, fs.LeadsTo (Utf8.encode (joinText targetRoot path)) q

namespace Collected

theorem refl (targetRoot : String) (fs : FileSystem) : Collected targetRoot [] [] fs fs :=
  ⟨.refl fs, fun _ => .inl rfl⟩

theorem trans (h : Collected targetRoot copied tried fs gs)
    (h' : Collected targetRoot copied' tried' gs hs) :
    Collected targetRoot (copied ++ copied') (tried ++ tried') fs hs where
  toGrows := h.toGrows.trans h'.toGrows
  at? q := by
    rcases h'.at? q with same' | ⟨path, there, upper, up, onWay, missing, new⟩ |
      ⟨path, there, leads⟩
    · rcases h.at? q with same | ⟨path, there, upper, up, onWay, missing, new⟩ |
        ⟨path, there, leads⟩
      · exact .inl (same'.trans same)
      · exact .inr (.inl ⟨path, by simp [there], upper, up, onWay, missing, same'.trans new⟩)
      · exact .inr (.inr ⟨path, by simp [there], leads⟩)
    · rcases h.at? q with same | ⟨_, _, _, _, _, _, made⟩ | ⟨path, there, leads⟩
      · exact .inr (.inl ⟨path, by simp [there], upper, up, h.onWay_iff.1 onWay,
          same.symm.trans missing, new⟩)
      · simp [made] at missing
      · exact .inr (.inr ⟨path, by simp [there], leads⟩)
    · exact .inr (.inr ⟨path, by simp [there], h.leadsTo_iff.1 leads⟩)

/-- Where no copy was put there is a file if there was one, and it is the same. -/
theorem file_iff (h : Collected targetRoot copied tried fs gs)
    (other : ∀ path ∈ copied, ¬ fs.LeadsTo (Utf8.encode (joinText targetRoot path)) q) :
    gs.at? q = some (.file content) ↔ fs.at? q = some (.file content) := by
  rcases h.at? q with same | ⟨_, _, _, _, _, missing, new⟩ | ⟨path, there, leads⟩
  · rw [same]
  · simp [missing, new]
  · exact absurd leads (other path there)

/-- If the target root only steps up from what is there, new directories are above targets. -/
theorem above (h : Collected targetRoot copied tried fs gs) (all : copied ⊆ tried)
    (steady : fs.Steady (Utf8.encode targetRoot))
    (descends : ∀ path ∈ tried, Path.Descends (Utf8.encode path)) (missing : fs.at? q = none)
    (new : gs.at? q = some .directory) :
    ∃ path ∈ tried, ∃ t, fs.LeadsTo (Utf8.encode (joinText targetRoot path)) t ∧ q <+: t := by
  rcases h.at? q with same | ⟨path, there, upper, up, onWay, _, _⟩ | ⟨path, there, leads⟩
  · simp [same, missing] at new
  · obtain ⟨t, leads, below⟩ :=
      leads_of_onWay (steady.joinText (descends path there)) (onWay.of_parent? up) missing
    exact ⟨path, there, t, leads, below⟩
  · exact ⟨path, all there, q, leads, List.prefix_refl q⟩

end Collected

theorem collected_of_put {d : Copied} (put : d.Put fs gs)
    (target : d.target = Utf8.encode (joinText targetRoot path)) :
    Collected targetRoot [path] [path] fs gs where
  toGrows := put.toGrows
  at? q := by
    by_cases here : q = d.place
    · exact .inr (.inr ⟨path, by simp, here ▸ target ▸ put.toPlace⟩)
    · exact (put.kept q here).imp_right fun made => .inl ⟨path, by simp, target ▸ made⟩

theorem collected_of_error
    (failed : copyFile (joinText sourceRoot path) (joinText targetRoot path) w = .error e w') :
    Collected targetRoot [] [path] w.files w'.files where
  toGrows := (kept_of_copyFile_error failed).1
  at? q := ((kept_of_copyFile_error failed).2 q).imp_right fun made => .inl ⟨path, by simp, made⟩

theorem collected_of_copyAll (done : copyAll sourceRoot targetRoot paths w = .ok () w') :
    Collected targetRoot paths paths w.files w'.files := by
  induction paths generalizing w with
  | nil =>
      cases done
      exact .refl targetRoot _
  | cons path rest ih =>
      obtain ⟨_, w₁, copied, later⟩ := bind_eq_ok.1 done
      obtain ⟨d, _, target, put⟩ := copyFile_put copied
      exact (collected_of_put put target).trans (ih later)

/-- Copies that are made are made in turn. -/
theorem copyAll_split {before after : List String}
    (done : copyAll sourceRoot targetRoot (before ++ path :: after) w = .ok () w') :
    ∃ w₁ w₂, copyAll sourceRoot targetRoot before w = .ok () w₁ ∧
      copyFile (joinText sourceRoot path) (joinText targetRoot path) w₁ = .ok () w₂ ∧
      copyAll sourceRoot targetRoot after w₂ = .ok () w' := by
  rw [copyAll_eq_forM] at done
  obtain ⟨w₁, first, done⟩ := forM_append_eq_ok.1 done
  rw [List.forM_cons] at done
  obtain ⟨_, w₂, copied, rest⟩ := bind_eq_ok.1 done
  rw [← copyAll_eq_forM] at first rest
  exact ⟨w₁, w₂, first, copied, rest⟩

/-- Copies fail with the first one that fails, when those before it are made and those after it
not yet tried. -/
theorem copyAll_error (failed : copyAll sourceRoot targetRoot paths w = .error e w') :
    ∃ before path after fault w₁, paths = before ++ path :: after ∧
      e = .copyFailed (joinText sourceRoot path) (joinText targetRoot path) fault ∧
      copyAll sourceRoot targetRoot before w = .ok () w₁ ∧
      Collected targetRoot [] [path] w₁.files w'.files := by
  rw [copyAll_eq_forM] at failed
  obtain ⟨before, path, after, w₁, rfl, done, failed⟩ := forM_eq_error failed
  obtain ⟨fault, rfl⟩ := copyFile_error failed
  exact ⟨before, path, after, fault, w₁, rfl, rfl, by rw [copyAll_eq_forM, done],
    collected_of_error failed⟩

/-! ## Roots apart -/

/-- Both roots are read from directories that are there, and the source root is a directory. No path
from there arrives at the target root or below it, and there are no links there. -/
structure Separate (fs : FileSystem) (sourceRoot targetRoot : String) : Prop where
  source : fs.at? (Path.origin (Utf8.encode sourceRoot) fs.workingDir) = some .directory
  target : fs.at? (Path.origin (Utf8.encode targetRoot) fs.workingDir) = some .directory
  directory : fs.isDir (Utf8.encode sourceRoot) = true
  plain : ∀ t, fs.LeadsTo (Utf8.encode targetRoot) t → ∀ r text, fs.at? (t ++ r) ≠ some (.link text)
  outside : ∀ t, fs.LeadsTo (Utf8.encode targetRoot) t → ∀ (names : Place) (p : Place),
    fs.Arrives (Path.join (Utf8.encode sourceRoot) names.relativePath) p → ¬ t <+: p

/-- A path below a root is that of a file, links followed. -/
def IsFound (fs : FileSystem) (sourceRoot path : String) : Prop :=
  ∃ names : Place, names ≠ [] ∧ Utf8.encode path = names.relativePath ∧
  fs.LeadsToFile (Utf8.encode sourceRoot) names

theorem IsFound.descends (h : IsFound fs sourceRoot path) : Path.Descends (Utf8.encode path) := by
  obtain ⟨names, _, spelled, _⟩ := h
  exact descends_of_relative ⟨names, spelled⟩

namespace Separate

variable (h : Separate fs sourceRoot targetRoot)

include h

theorem starts (descends : Path.Descends (Utf8.encode path)) :
    fs.Starts (Utf8.encode (joinText sourceRoot path)) :=
  Starts.joinText (show fs.at? _ ≠ none by simp [h.source]) descends

theorem starts_target (descends : Path.Descends (Utf8.encode path)) :
    fs.Starts (Utf8.encode (joinText targetRoot path)) :=
  Starts.joinText (show fs.at? _ ≠ none by simp [h.target]) descends

theorem found_of_findMatches (search : findMatches sourceRoot pattern w = .ok paths w₁)
    (files : w.files = fs) : ∀ path ∈ paths, IsFound fs sourceRoot path := by
  subst files
  obtain ⟨_, _, whole, rfl⟩ := findMatches_ok search
  intro path there
  obtain ⟨file, met, spelled⟩ := List.mem_filterMap.1 (List.mem_of_mem_filter there)
  obtain ⟨met, isFile⟩ := List.mem_filter.1 met
  obtain ⟨_, leads⟩ := leadsToFile_of_met h.source (((mem_untilError whole).2 file).1 met) isFile
  refine ⟨file.names, fun none_ => ?_, Utf8.encode_of_decode? spelled, leads⟩
  -- The root itself is no file.
  obtain ⟨here, there, content, resolved, followed, file⟩ := leads
  obtain rfl : here = there := by simpa [none_, follow_nil] using followed
  obtain ⟨p, ⟨links, resolved'⟩, directory⟩ := isDir_iff.1 h.directory
  rw [resolved] at resolved'
  cases resolved'
  simp [file] at directory

theorem place_of_target (spelled : Utf8.encode path = names.relativePath)
    (leads : fs.LeadsTo (Utf8.encode (joinText targetRoot path)) q) :
    ∃ t, fs.LeadsTo (Utf8.encode targetRoot) t ∧ q = t ++ names := by
  have descends := descends_of_relative ⟨names, spelled⟩
  have way := leads
  rw [encode_joinText, LeadsTo, Path.origin_join descends.relative,
    Path.segments_join descends.relative] at way
  obtain ⟨t, base, _⟩ := way.split
  refine ⟨t, base, ?_⟩
  rw [leads.eq_of_join base descends (h.plain t base), spelled, Path.segments_relativePath,
    Segment.names_map_name]

/-- Targets of different paths are different. -/
theorem eq_of_target (found : IsFound fs sourceRoot path) (found' : IsFound fs sourceRoot path')
    (leads : fs.LeadsTo (Utf8.encode (joinText targetRoot path)) q)
    (leads' : fs.LeadsTo (Utf8.encode (joinText targetRoot path')) q) : path = path' := by
  obtain ⟨names, _, spelled, _⟩ := found
  obtain ⟨names', _, spelled', _⟩ := found'
  obtain ⟨t, base, rfl⟩ := h.place_of_target spelled leads
  obtain ⟨t', base', same⟩ := h.place_of_target spelled' leads'
  obtain rfl := base.unique base'
  obtain rfl := List.append_cancel_left same
  exact Utf8.encode_injective (spelled.trans spelled'.symm)

/-- No target is what a path from the source root arrives at. -/
theorem not_target (arrives : fs.Arrives (Path.join (Utf8.encode sourceRoot) names.relativePath) q)
    (found : IsFound fs sourceRoot path) :
    ¬ fs.LeadsTo (Utf8.encode (joinText targetRoot path)) q := by
  obtain ⟨names', _, spelled, _⟩ := found
  intro leads
  obtain ⟨t, base, rfl⟩ := h.place_of_target spelled leads
  exact h.outside t base names _ arrives (List.prefix_append t names')

end Separate

/-- Without links, roots keep apart if neither is below the other. -/
theorem separate_of_linkless {p : Place} (linkless : fs.links = [])
    (absolute : Path.isAbsolute (Utf8.encode sourceRoot) = true ∧
      Path.isAbsolute (Utf8.encode targetRoot) = true)
    (arrives : fs.Arrives (Utf8.encode sourceRoot) p) (directory : fs.at? p = some .directory)
    (leads : ∀ q, fs.LeadsTo (Utf8.encode targetRoot) q → q = t) (beside : ¬ p <+: t ∧ ¬ t <+: p) :
    Separate fs sourceRoot targetRoot where
  source := by simp [Path.origin, absolute.1]
  target := by simp [Path.origin, absolute.2]
  directory := isDir_iff.2 ⟨p, arrives, directory⟩
  plain _ _ _ text := plain_of_links linkless _ text
  outside q toward names r arrives' := by
    obtain rfl := leads q toward
    have way := arrives.leads.join (Path.descends_relativePath names) fun r text =>
      plain_of_links linkless (p ++ r) text
    rw [arrives'.leads.unique way]
    exact (Place.beside_of_below (List.prefix_append ..) beside).2

/-- Every file that was copied is read from both roots as it was in the beginning, also after
another copy was tried. -/
theorem read?_of_copyAll (separate : Separate w.files sourceRoot targetRoot)
    (found : ∀ path ∈ paths, IsFound w.files sourceRoot path) (distinct : paths.Nodup)
    (done : copyAll sourceRoot targetRoot paths w = .ok () w₁)
    (later : Collected targetRoot [] tried w₁.files gs) (there : path ∈ paths) :
    ∃ content, w.files.read? (Utf8.encode (joinText sourceRoot path)) = some content ∧
      gs.read? (Utf8.encode (joinText sourceRoot path)) = some content ∧
      gs.read? (Utf8.encode (joinText targetRoot path)) = some content := by
  have whole := collected_of_copyAll done
  have grown := whole.toGrows.trans later.toGrows
  obtain ⟨before, after, rfl⟩ := List.append_of_mem there
  obtain ⟨w₂, w₃, first, copied, rest⟩ := copyAll_split done
  have first := collected_of_copyAll first
  have rest := collected_of_copyAll rest
  obtain ⟨⟨_, _, s, t, content⟩, rfl, rfl, put⟩ := copyFile_put copied
  have own := found path there
  obtain ⟨names, inner, spelled, leads⟩ := id own
  have starts := separate.starts own.descends
  -- The source was read, so its text is not too long, and the file was there from the beginning.
  have short := (put.source (starts.of_within first.toWithin)).takes.path
  rw [put.limits, first.limits, encode_joinText, spelled] at short
  obtain ⟨s', content', arrives, file⟩ := leads.arrives inner short
  have aside : ∀ path' ∈ before ++ path :: after,
      ¬ w.files.LeadsTo (Utf8.encode (joinText targetRoot path')) s' :=
    fun path' there' => separate.not_target arrives (found path' there')
  rw [← spelled, ← encode_joinText] at arrives
  obtain rfl : s' = s := arrives.leads.unique (first.leadsTo_iff.1 put.toOrigin)
  have toPlace := first.leadsTo_iff.1 put.toPlace
  have same : content = content' := by
    have held := put.content
    have other : s' ≠ t := fun same => aside path there (same ▸ toPlace)
    simp only [if_neg other] at held
    have := (first.file_iff fun path' early => aside path' (by simp [early])).2 file
    simpa [this, eq_comm] using held
  subst same
  -- What comes later goes to other places.
  have others : ∀ path' ∈ after,
      ¬ w₃.files.LeadsTo (Utf8.encode (joinText targetRoot path')) t := by
    intro path' late leads'
    have toward := first.leadsTo_iff.1 (put.leadsTo_iff.1 leads')
    obtain rfl := separate.eq_of_target own (found path' (by simp [late])) toPlace toward
    simp [List.nodup_append, late] at distinct
  have placed := (later.file_iff (by simp)).2 ((rest.file_iff others).2 put.stands)
  have kept := (later.file_iff (by simp)).2 ((whole.file_iff aside).2 file)
  have starts₂ := (separate.starts_target own.descends).of_within first.toWithin
  have reached := (put.target starts₂).of_within (rest.toGrows.trans later.toGrows).toWithin
    (starts₂.of_within put.toWithin)
  exact ⟨content, read?_eq_some_iff.2 ⟨_, arrives, file⟩,
    read?_eq_some_iff.2 ⟨_, arrives.of_within grown.toWithin starts, kept⟩,
    read?_eq_some_iff.2 ⟨_, reached, placed⟩⟩

/-- What copies leave behind: those of `copied` were made, and no others than those of `tried`
were begun. -/
structure Received (sourceRoot targetRoot : String) (copied tried : List String)
    (fs gs : FileSystem) : Prop where
  reads : ∀ path ∈ copied, ∃ content, fs.read? (Utf8.encode (joinText sourceRoot path)) =
    some content ∧ gs.read? (Utf8.encode (joinText sourceRoot path)) = some content ∧
    gs.read? (Utf8.encode (joinText targetRoot path)) = some content
  collected : Collected targetRoot copied tried fs gs
  above : fs.Steady (Utf8.encode targetRoot) → ∀ q, fs.at? q = none → gs.at? q = some .directory →
    ∃ path ∈ tried, ∃ t, fs.LeadsTo (Utf8.encode (joinText targetRoot path)) t ∧ q <+: t

theorem received_of_copyAll (separate : Separate w.files sourceRoot targetRoot)
    (found : ∀ path ∈ paths ++ tried, IsFound w.files sourceRoot path) (distinct : paths.Nodup)
    (done : copyAll sourceRoot targetRoot paths w = .ok () w₁)
    (later : Collected targetRoot [] tried w₁.files gs) :
    Received sourceRoot targetRoot paths (paths ++ tried) w.files gs := by
  have whole : Collected targetRoot paths (paths ++ tried) w.files gs := by
    simpa using (collected_of_copyAll done).trans later
  refine ⟨fun path there => ?_, whole, fun steady q missing new => ?_⟩
  · exact read?_of_copyAll separate (fun path there => found path (by simp [there])) distinct done
      later there
  · exact whole.above (List.subset_append_left ..) steady
      (fun path there => (found path there).descends) missing new

/-- Where a copy would go that was not made, no file has come, gone or changed. -/
theorem Separate.untouched {rest : List String} (separate : Separate fs sourceRoot targetRoot)
    (found : ∀ path ∈ copied ++ rest, IsFound fs sourceRoot path)
    (distinct : (copied ++ rest).Nodup) (left : Collected targetRoot copied tried fs gs)
    (there : path ∈ rest) (leads : fs.LeadsTo (Utf8.encode (joinText targetRoot path)) t) :
    gs.at? t = some (.file content) ↔ fs.at? t = some (.file content) := by
  refine left.file_iff fun path' made leads' => ?_
  obtain rfl :=
    separate.eq_of_target (found path (by simp [there])) (found path' (by simp [made])) leads leads'
  exact List.disjoint_of_nodup_append distinct made there

/-! ## Into an empty directory -/

section Empty

variable (separate : Separate fs sourceRoot targetRoot)
  (arrives : fs.Arrives (Utf8.encode targetRoot) t) (directory : fs.at? t = some .directory)
  (empty : ∀ n, fs.at? (t ++ [n]) = none)

include separate arrives directory empty

theorem Separate.deliverable (found : IsFound fs sourceRoot path)
    (short : exceeds (Utf8.encode (joinText sourceRoot path)).length fs.limits.path = false)
    (short' : exceeds (Utf8.encode (joinText targetRoot path)).length fs.limits.path = false) :
    Deliverable fs (joinText sourceRoot path) (joinText targetRoot path)
      (t ++ Segment.names (Path.segments (Utf8.encode path))) := by
  have starts := separate.starts found.descends
  have steady :=
    (arrives.steady (show fs.at? _ ≠ none by simp [separate.target])).joinText found.descends
  obtain ⟨names, inner, spelled, leads⟩ := found
  have named : Segment.names (Path.segments names.relativePath) = names := by
    rw [Path.segments_relativePath, Segment.names_map_name]
  have read := leads
  obtain ⟨_, _, _, _, followed, _⟩ := leads
  rw [encode_joinText, spelled] at short short'
  refine ⟨starts, steady, ?_, ?_, ?_, ?_, ?_⟩
  · rw [encode_joinText, spelled]
    exact read.arrives inner short
  · rw [encode_joinText, spelled]
    exact arrives.points_join directory (Path.inward_relativePath inner)
  · rw [encode_joinText, spelled]
    refine arrives.takes.join (Path.descends_relativePath names) short' fun n inside => ?_
    exact not_exceeds_of_follow followed n (by simpa [named] using inside)
  · rw [encode_joinText, spelled]
    exact Path.endsInSlash_join_relativePath _ inner
  · rw [spelled, named]
    exact .of_empty directory empty inner

/-- Only the length of a text can stand in the way of a copy. -/
theorem copyAll_ok_iff (files : w.files = fs) (found : ∀ path ∈ paths, IsFound fs sourceRoot path)
    (distinct : paths.Nodup) :
    (∃ w', copyAll sourceRoot targetRoot paths w = .ok () w') ↔
      ∀ path ∈ paths, exceeds (Utf8.encode (joinText sourceRoot path)).length fs.limits.path =
        false ∧ exceeds (Utf8.encode (joinText targetRoot path)).length fs.limits.path = false := by
  subst files
  constructor
  · rintro ⟨w', done⟩ path there
    have received := received_of_copyAll separate (by simpa using found) distinct done
      (Collected.refl targetRoot w'.files)
    obtain ⟨content, read, _, written⟩ := received.reads path there
    obtain ⟨_, reads, _⟩ := read?_eq_some_iff.1 read
    obtain ⟨_, writes, _⟩ := read?_eq_some_iff.1 written
    have short := writes.takes.path
    rw [received.collected.limits] at short
    exact ⟨reads.takes.path, short⟩
  · intro short
    refine copyAll_done (fun path => t ++ Segment.names (Path.segments (Utf8.encode path)))
      (fun path there => separate.deliverable arrives directory empty (found path there)
        (short path there).1 (short path there).2) fun a ha b hb => ?_
    obtain ⟨names, _, spelled, leads⟩ := found a ha
    obtain ⟨names', _, spelled', leads'⟩ := found b hb
    rw [spelled, spelled', Path.segments_relativePath, Path.segments_relativePath,
      Segment.names_map_name, Segment.names_map_name]
    exact (leads.level leads').append t

end Empty

/-! ## Collections -/

theorem collect_ok_iff (separate : Separate w.files sourceRoot targetRoot)
    (arrives : w.files.Arrives (Utf8.encode targetRoot) t)
    (directory : w.files.at? t = some .directory) (empty : ∀ n, w.files.at? (t ++ [n]) = none)
    (search : findMatches sourceRoot pattern w = .ok paths w₁) :
    (∃ w', collect sourceRoot pattern targetRoot w = .ok paths w') ↔
      ∀ path ∈ paths, exceeds (Utf8.encode (joinText sourceRoot path)).length w.files.limits.path =
        false ∧ exceeds (Utf8.encode (joinText targetRoot path)).length w.files.limits.path =
          false := by
  obtain ⟨w₂, files, collects⟩ := collect_of_findMatches targetRoot search
  rw [collects, ← copyAll_ok_iff separate arrives directory empty files
    (separate.found_of_findMatches search rfl) (findMatches_nodup search)]
  constructor
  · rintro ⟨w', done⟩
    obtain ⟨_, w₃, copied, _⟩ := bind_eq_ok.1 done
    exact ⟨w₃, copied⟩
  · rintro ⟨w', copied⟩
    exact ⟨w', bind_of_ok copied⟩

/-- A collection whose search fails does so in the same way, and changes nothing. Else, if the roots
keep apart, all that was found is copied, or a copy fails: then those before it are made, and where
it would go, or one after it, no file has come, gone or changed. Nothing else changes either, but
for directories made for the copies tried. Into an empty directory all can be copied if no text is
too long, and only then: there are no permissions here that a copy could lack. -/
theorem collect_copies_in_turn (sourceRoot : String) (pattern : ArtifactPattern)
    (targetRoot : String) (w : Workshop) :
    (∀ e w₁, findMatches sourceRoot pattern w = .error e w₁ →
      ∃ w', collect sourceRoot pattern targetRoot w = .error e w' ∧ w'.files = w.files) ∧
    (Separate w.files sourceRoot targetRoot →
      ∀ paths w₁, findMatches sourceRoot pattern w = .ok paths w₁ → w₁.files = w.files ∧
      ((∃ w', collect sourceRoot pattern targetRoot w = .ok paths w' ∧
          Received sourceRoot targetRoot paths paths w.files w'.files) ∨
        ∃ before path after fault w', paths = before ++ path :: after ∧
          collect sourceRoot pattern targetRoot w =
            .error (.copyFailed (joinText sourceRoot path) (joinText targetRoot path) fault) w' ∧
          Received sourceRoot targetRoot before (before ++ [path]) w.files w'.files ∧
          ∀ other ∈ path :: after, ∀ t,
            w.files.LeadsTo (Utf8.encode (joinText targetRoot other)) t →
            ∀ content, w'.files.at? t = some (.file content) ↔
              w.files.at? t = some (.file content)) ∧
      ∀ t, w.files.Arrives (Utf8.encode targetRoot) t → w.files.at? t = some .directory →
        (∀ n, w.files.at? (t ++ [n]) = none) →
        ((∃ w', collect sourceRoot pattern targetRoot w = .ok paths w') ↔
          ∀ path ∈ paths,
            exceeds (Utf8.encode (joinText sourceRoot path)).length w.files.limits.path = false ∧
            exceeds (Utf8.encode (joinText targetRoot path)).length w.files.limits.path =
              false)) := by
  refine ⟨fun e w₁ failed => ?_, fun separate paths w₁ search => ?_⟩
  · exact ⟨w₁, bind_of_error failed, by simpa [failed] using findMatches_files sourceRoot pattern w⟩
  refine ⟨by simpa [search] using findMatches_files sourceRoot pattern w,
      ?_, fun t arrives directory empty =>
    collect_ok_iff separate arrives directory empty search⟩
  have found := separate.found_of_findMatches search rfl
  have distinct := findMatches_nodup search
  obtain ⟨w₂, files, collects⟩ := collect_of_findMatches targetRoot search
  rw [collects]
  rw [← files] at separate found ⊢
  cases copied : copyAll sourceRoot targetRoot paths w₂ with
  | ok _ w' =>
      refine .inl ⟨w', bind_of_ok copied, ?_⟩
      simpa using received_of_copyAll separate (by simpa using found) distinct copied
        (Collected.refl targetRoot w'.files)
  | error e w' =>
      obtain ⟨before, path, after, fault, w₃, rfl, rfl, done, tried⟩ := copyAll_error copied
      have received := received_of_copyAll separate (fun path' there => found path' (by
        simp only [List.mem_append, List.mem_cons] at there ⊢
        tauto)) distinct.of_append_left done tried
      exact .inr ⟨before, path, after, fault, w', rfl, bind_of_error copied,
          received, fun other there t leads content =>
        separate.untouched found distinct received.collected there leads⟩

/-- A game with two class files, and an empty directory beside it. -/
def collectedGame : FileSystem :=
  ([("/pz", .directory), ("/pz/a.class", holding "first"), ("/pz/mods", .directory),
    ("/pz/mods/b.class", holding "second"), ("/t", .directory)]
  : List (String × Entry)).foldl (fun fs (text, e) => fs.plant text e) (empty {})

theorem collectedGame_separate {target : String}
    (absolute : Path.isAbsolute (Utf8.encode target) = true)
    (leads : ∀ q, collectedGame.LeadsTo (Utf8.encode target) q →
      q = Path.spelled (Utf8.encode "/t")) :
    Separate collectedGame "/pz" target :=
  separate_of_linkless (p := Path.spelled (Utf8.encode "/pz")) (by decide)
    ⟨by decide, absolute⟩ ⟨40, by decide⟩ (isDirectoryAt_iff.1 (by decide)) leads
      (by decide)

theorem collectedGame_found :
    ∃ w, findMatches "/pz" .classFiles ⟨collectedGame, [], []⟩ =
      .ok ["a.class", "mods/b.class"] w :=
  resultOf?_eq_some (by decide +kernel)

theorem collectedGame_empty :
    collectedGame.at? (Path.spelled (Utf8.encode "/t")) = some .directory ∧
      ∀ n, collectedGame.at? (Path.spelled (Utf8.encode "/t") ++ [n]) = none := by
  refine ⟨isDirectoryAt_iff.1 (by decide), fun n => ?_⟩
  have none_ : collectedGame.children (Path.spelled (Utf8.encode "/t")) = [] := by decide
  by_contra there
  obtain ⟨entry, there⟩ := Option.ne_none_iff_exists'.1 there
  simpa [none_] using mem_children.2 there

theorem collect_copies_in_turn_game :
    Separate collectedGame "/pz" "/t" ∧
      (∃ w, findMatches "/pz" .classFiles ⟨collectedGame, [], []⟩ =
        .ok ["a.class", "mods/b.class"] w) ∧
      ∃ w', collect "/pz" .classFiles "/t" ⟨collectedGame, [], []⟩ =
        .ok ["a.class", "mods/b.class"] w' ∧
        Received "/pz" "/t" ["a.class", "mods/b.class"] ["a.class",
          "mods/b.class"] collectedGame w'.files := by
  have separate : Separate collectedGame "/pz" "/t" :=
    collectedGame_separate (by decide) fun q => place_of_leadsTo (by decide) (by decide)
  obtain ⟨w, search⟩ := collectedGame_found
  refine ⟨separate, ⟨w, search⟩, ?_⟩
  obtain ⟨_, ends, all⟩ :=
    (collect_copies_in_turn "/pz" .classFiles "/t" ⟨collectedGame, [], []⟩).2 separate _ w search
  obtain ⟨w', collected⟩ :=
    (all _ ⟨40, by decide⟩ collectedGame_empty.1 collectedGame_empty.2).2
    (by decide)
  rcases ends with done | ⟨_, _, _, _, _, _, failed, _⟩
  · exact done
  · rw [collected] at failed
    cases failed

theorem Path.length_join {base more : Path} (relative : more.isAbsolute = false) (some_ : base ≠ [])
    (noSlash : base.endsInSlash = false) :
    (base.join more).length = base.length + more.length + 1 := by
  rw [Path.join, if_neg (by simp [relative]), if_neg (by simp [some_, noSlash]), List.length_append,
    List.length_cons]
  omega

/-- The same directory under a text with dots at its end. -/
def dotted : Nat → String
  | 0 => "/t"
  | k + 1 => joinText (dotted k) "."

theorem dotted_spec (k : Nat) : Path.isAbsolute (Utf8.encode (dotted k)) = true ∧
    Path.endsInSlash (Utf8.encode (dotted k)) = false ∧
    (Utf8.encode (dotted k)).length = 2 * k + 2 := by
  have relative : Path.isAbsolute (Utf8.encode ".") = false := by decide
  induction k with
  | zero => decide
  | succ k ih =>
      obtain ⟨absolute, noSlash, length⟩ := ih
      have some_ : Utf8.encode (dotted k) ≠ [] := fun none_ => by simp [none_] at length
      rw [dotted, encode_joinText, Path.isAbsolute_join relative,
        Path.endsInSlash_join relative (by decide), Path.length_join relative some_ noSlash, length]
      exact ⟨absolute, by decide, by rw [show (Utf8.encode ".").length = 1 by decide]; omega⟩

/-- A dot behind it makes no difference to where a directory's text arrives, until it is too
long. -/
theorem FileSystem.Arrives.join_dot {base : Path} (arrive : fs.Arrives base q)
    (directory : fs.at? q = some .directory)
    (short : exceeds (base.join [dot]).length fs.limits.path = false) :
    fs.Arrives (base.join [dot]) q := by
  have relative : Path.isAbsolute [dot] = false := by decide
  obtain ⟨links, resolved⟩ := arrive
  obtain ⟨fit, way⟩ := resolve_eq_ok_iff.1 resolved
  obtain ⟨m, front, stay⟩ := follow_prefix way
  cases follow_slash_ok stay
  have noZero := Path.zero_not_mem_join (zero_not_mem_of_vet fit) (show 0 ∉ [dot] by decide)
  have some_ := Path.join_ne_nil base (q := [dot]) (by simp)
  refine ⟨m.links, resolve_eq_ok_iff.2 ⟨by simp [vet, noZero, some_, short], ?_⟩⟩
  rw [Path.steps, Path.endsInSlash_join relative (by simp), Path.segments_join relative,
    Path.origin_join relative, if_neg (by decide), List.append_nil,
    show Path.segments [dot] = [.here] by decide, follow_append, front]
  simp [follow, scan, readable, directory]

theorem arrives_dotted (k : Nat) (short : 2 * k + 2 ≤ 4095) :
    collectedGame.Arrives (Utf8.encode (dotted k)) (Path.spelled (Utf8.encode "/t")) := by
  induction k with
  | zero => exact ⟨40, by decide⟩
  | succ k ih =>
      have length := (dotted_spec (k + 1)).2.2
      rw [dotted, encode_joinText] at length ⊢
      refine (ih (by omega)).join_dot collectedGame_empty.1 ?_
      rw [show [dot] = Utf8.encode "." by decide, length,
        show collectedGame.limits.path = some 4095 by decide]
      simpa [exceeds] using short

theorem collect_dotted (k : Nat) (short : 2 * k + 2 ≤ 4095) (long : 4095 < 2 * k + 10)
    (paths : List String) (w : Workshop) : collect "/pz" .classFiles (dotted k)
      ⟨collectedGame, [], []⟩ ≠ .ok paths w := by
  intro done
  have arrives := arrives_dotted k short
  have separate :=
    collectedGame_separate (dotted_spec k).1 fun q leads => leads.unique arrives.leads
  obtain ⟨_, search⟩ := collectedGame_found
  obtain rfl : paths = ["a.class", "mods/b.class"] := by
    obtain ⟨_, search'⟩ := findMatches_of_collect done
    cases search.symm.trans search'
    rfl
  have fits :=
    (collect_ok_iff (w := ⟨collectedGame, [], []⟩) separate arrives collectedGame_empty.1
      collectedGame_empty.2
    search).1 ⟨w, done⟩ "a.class" (by simp)
  have length := fits.2
  obtain ⟨_, noSlash, own⟩ := dotted_spec k
  rw [encode_joinText, Path.length_join (by decide) (fun none_ => by simp [none_] at own) noSlash,
    own, show (Utf8.encode "a.class").length = 7 by decide,
    show collectedGame.limits.path = some 4095 by decide] at length
  simp only [exceeds, decide_eq_false_iff_not] at length
  omega

/-- Into an empty directory nothing is copied if the texts of the copies are longer than the system
takes. And where the target root steps up from a directory in it that is missing, that directory is
made, although no file is copied there. -/
theorem collect_too_long :
    (Separate collectedGame "/pz" (dotted 2045) ∧
      (∃ w, findMatches "/pz" .classFiles ⟨collectedGame, [], []⟩ =
        .ok ["a.class", "mods/b.class"] w) ∧
      (∃ t, collectedGame.Arrives (Utf8.encode (dotted 2045)) t ∧
        collectedGame.at? t = some .directory ∧ ∀ n, collectedGame.at? (t ++ [n]) = none) ∧
      ∀ paths w, collect "/pz" .classFiles (dotted 2045) ⟨collectedGame, [], []⟩ ≠ .ok paths w) ∧
    Separate collectedGame "/pz" "/t/x/.." ∧
      resultOf? (collect "/pz" .classFiles "/t/x/.." ⟨collectedGame, [], []⟩) =
        some ["a.class", "mods/b.class"] ∧
      collectedGame.isDir (Utf8.encode "/t/x") = false ∧
      (leftBy (collect "/pz" .classFiles "/t/x/.." ⟨collectedGame, [], []⟩)).files.isDir
        (Utf8.encode "/t/x") = true := by
  have arrives := arrives_dotted 2045 (by decide)
  refine ⟨⟨?_, collectedGame_found, ⟨_, arrives, collectedGame_empty⟩,
    collect_dotted 2045 (by decide) (by decide)⟩, ?_, by decide +kernel⟩
  · exact collectedGame_separate (dotted_spec 2045).1 fun q leads => leads.unique arrives.leads
  · exact collectedGame_separate (by decide) fun q =>
      place_of_leadsTo (by decide) (by decide)

end ClassPack
