import ClassPack.Proofs.FileSystem.Making

/-!
# Writing — files put where texts lead

* `WritesAt fs text t` — a text under which a file can be written, and the place where it then
  stands;
* `Wrote t content fs gs` — a file was put at a place;
* `openForWriting_ok`, `writeFile_ok` and `copy_ok`, what these calls do when they go well; when
  they do not, nothing has changed.
-/

namespace ClassPack
namespace FileSystem

variable {fs gs hs : FileSystem} {p q t : Place} {text : Path}

/-! ## Writing files -/

/-- A file was put at a place. -/
structure Wrote (t : Place) (content : Content) (fs gs : FileSystem) : Prop where
  workingDir : gs.workingDir = fs.workingDir
  limits : gs.limits = fs.limits
  at? : ∀ q, gs.at? q = if q = t then some (.file content) else fs.at? q

/-- A text under which a file can be written, and the place where it stands then. -/
structure WritesAt (fs : FileSystem) (text : Path) (t : Place) : Prop where
  noZero : 0 ∉ text
  leads : fs.LeadsTo text t
  free : fs.at? t = none ∨ ∃ content, fs.at? t = some (.file content)
  noSlash : text.endsInSlash = false
  arrives : ∀ {gs content}, fs.Grows gs → fs.Starts text →
    gs.at? t = some (.file content) → gs.Arrives text t

theorem Wrote.grows {content : Content} (h : Wrote t content fs gs)
    (free : fs.at? t = none ∨ ∃ content, fs.at? t = some (.file content)) : fs.Grows gs where
  workingDir := h.workingDir
  limits := h.limits
  directory {q} there := by
    rw [h.at?, if_neg, there]
    rintro rfl
    rcases free with missing | ⟨_, file⟩ <;> simp_all
  file {q content'} there := by
    rw [h.at?]
    split
    · exact ⟨_, rfl⟩
    · exact ⟨_, there⟩
  link {q target} there := by
    rw [h.at?, if_neg, there]
    rintro rfl
    rcases free with missing | ⟨_, file⟩ <;> simp_all
  noLink {q target} there := by
    rw [h.at?] at there
    split at there
    · simp at there
    · exact there

/-- What was put where nothing was is taken away without a trace. -/
theorem Wrote.remove_eq {n : Name} {content : Content} (h : Wrote (p ++ [n]) content fs gs)
    (missing : fs.at? (p ++ [n]) = none) : gs.remove (p ++ [n]) = fs := by
  refine ext_at? (fun q => ?_) (by simp [h.workingDir]) (by simp [h.limits])
  rw [at?_remove, h.at?]
  split
  · -- Below it there never was anything.
    rename_i gone
    obtain ⟨r, rfl⟩ := gone.2
    exact (at?_append_of_missing missing r).symm
  · rename_i kept
    rw [if_neg]
    rintro rfl
    exact kept ⟨by simp, List.prefix_refl _⟩

/-- Steps from `p` lead to an entry `n` of the directory `dir`, where a file may stand, and reach it
with `links` links to follow once a file stands there. -/
structure SiteOf (fs : FileSystem) (links : Nat) (p : Place) (steps : List Segment) (dir : Place)
    (n : Name) : Prop where
  above : fs.at? dir = some .directory
  short : exceeds n.bytes.length fs.limits.name = false
  free : fs.at? (dir ++ [n]) = none ∨ ∃ content, fs.at? (dir ++ [n]) = some (.file content)
  leads : fs.Leads p steps (dir ++ [n])
  arrives : ∀ {gs content}, fs.Grows gs → fs.at? p ≠ none →
    gs.at? (dir ++ [n]) = some (.file content) →
    ∃ left, gs.follow links p steps = .ok ⟨dir ++ [n], left⟩

namespace SiteOf

variable {links left : Nat} {before : List Segment} {dir dir' : Place} {n n' : Name}

/-- A name in the directory that the steps before it reach. -/
theorem of_free (way : fs.follow links p before = .ok ⟨dir, left⟩)
    (above : fs.at? dir = some .directory) (short : exceeds n.bytes.length fs.limits.name = false)
    (free : fs.at? (dir ++ [n]) = none ∨ ∃ content, fs.at? (dir ++ [n]) = some (.file content)) :
    fs.SiteOf links p (before ++ [.name n]) dir n where
  above := above
  short := short
  free := free
  leads := by
    refine (Leads.of_follow way).append (.name (fun target there => ?_) (.done _))
    rcases free with missing | ⟨content, file⟩
    · simp [missing] at there
    · simp [file] at there
  arrives {gs content} grown start file := by
    refine ⟨left, ?_⟩
    rw [follow_append, follow_of_within grown.toWithin start way]
    simp [follow, scan, enterable, grown.directory above, grown.limits, short, file]

/-- The target of a link is read on from the directory that holds the link. -/
theorem of_link {onward : Path} (way : fs.follow links p before = .ok ⟨dir', left + 1⟩)
    (above : fs.at? dir' = some .directory) (short : exceeds n'.bytes.length fs.limits.name = false)
    (there : fs.at? (dir' ++ [n']) = some (.link onward)) (noSlash : onward.endsInSlash = false)
    (h : fs.SiteOf left (onward.origin dir') onward.segments dir n) :
    fs.SiteOf links p (before ++ [.name n']) dir n where
  above := h.above
  short := h.short
  free := h.free
  leads := (Leads.of_follow way).append (.link there (by simpa [Path.steps, noSlash] using h.leads))
  arrives {gs content} grown start file := by
    have stands : fs.at? (onward.origin dir') ≠ none := by
      unfold Path.origin
      split <;> simp [above]
    obtain ⟨rest, final⟩ := h.arrives grown stands file
    have stretch : gs.scan dir' [.name n'] = .ok (.link dir' onward []) := by
      simp [scan, enterable, grown.directory above, grown.limits, short, grown.link there]
    refine ⟨rest, ?_⟩
    rw [follow_append, follow_of_within grown.toWithin start way]
    show gs.follow (left + 1) dir' [.name n'] = _
    rw [follow, stretch]
    simpa [Path.steps, noSlash] using final

end SiteOf

theorem creationSite_spec {hops links : Nat} {segments : List Segment} {slash : Bool} {dir : Place}
    {n : Name} (h : fs.creationSite hops links p segments slash = .ok (dir, n)) :
    slash = false ∧ fs.SiteOf links p segments dir n := by
  induction hops generalizing links p segments slash with
  | zero => simp [creationSite] at h
  | succ hops ih =>
      unfold creationSite at h
      obtain ⟨⟨target, left⟩, found, site⟩ := ok_of_bind h
      cases target with
      | node place last => cases site
      | entry dir' n' slash' =>
          obtain ⟨before, rfl, way, above, short, rfl⟩ := locateFrom_entry found
          simp only at site
          split at site
          · cases site
          rename_i noSlash
          refine ⟨by simpa using noSlash, ?_⟩
          split at site
          · cases site
          · -- The link is read on.
            rename_i onward there
            cases left with
            | zero => cases site
            | succ left =>
                obtain ⟨noSlash', onward'⟩ := ih site
                exact .of_link way above short there noSlash' onward'
          · rename_i notDirectory notLink
            cases site
            refine .of_free way above short ?_
            cases there : fs.at? (dir ++ [n]) with
            | none => exact .inl rfl
            | some e =>
                cases e with
                | directory => exact absurd there notDirectory
                | file content => exact .inr ⟨content, rfl⟩
                | link target => exact absurd there (notLink target)

theorem writingSite_spec {dir : Place} {n : Name} (h : fs.writingSite text = .ok (dir, n)) :
    fs.at? dir = some .directory ∧ exceeds n.bytes.length fs.limits.name = false ∧
      fs.WritesAt text (dir ++ [n]) := by
  unfold writingSite at h
  obtain ⟨_, fit, found⟩ := ok_of_bind h
  obtain ⟨noSlash, site⟩ := creationSite_spec (refused_ok found)
  refine ⟨site.above, site.short, zero_not_mem_of_vet fit, site.leads, site.free, noSlash, ?_⟩
  intro gs content grown starts file
  obtain ⟨left, way⟩ := site.arrives grown starts file
  refine ⟨left, resolve_eq_ok_iff.2 ⟨by rw [grown.vet]; exact fit, ?_⟩⟩
  simpa [grown.limits, grown.workingDir, Path.steps, noSlash] using way

theorem wrote_put {dir : Place} {n : Name} (content : Content)
    (above : fs.at? dir = some .directory) (short : exceeds n.bytes.length fs.limits.name = false)
    (free : fs.at? (dir ++ [n]) = none ∨ ∃ content, fs.at? (dir ++ [n]) = some (.file content)) :
    Wrote (dir ++ [n]) content fs (fs.put dir n (.file content)) where
  workingDir := by simp
  limits := by simp
  at? := at?_put_of_free above (by rcases free with h | ⟨_, h⟩ <;> simp [h]) short

theorem openForWriting_error {e : IoFault} (h : openForWriting text fs = .error e gs) :
    gs = fs := by
  unfold openForWriting at h
  split at h <;> simp_all

/-- A file can be opened for writing where a place for it is found. -/
theorem openForWriting_of_site {site : Place × Name} (found : fs.writingSite text = .ok site) :
    ∃ gs, openForWriting text fs = .ok site gs :=
  ⟨fs.put site.1 site.2 (.file (.plain [])), by simp [openForWriting, found]⟩

theorem openForWriting_ok {site : Place × Name} (h : openForWriting text fs = .ok site gs) :
    fs.WritesAt text (site.1 ++ [site.2]) ∧ Wrote (site.1 ++ [site.2]) (.plain []) fs gs ∧
      gs.at? site.1 = some .directory ∧ exceeds site.2.bytes.length gs.limits.name = false := by
  unfold openForWriting at h
  split at h
  · rename_i dir n found
    cases h
    obtain ⟨above, short, writes⟩ := writingSite_spec found
    have wrote := wrote_put (.plain []) above short writes.free
    exact ⟨writes, wrote, (wrote.grows writes.free).directory above, by simpa using short⟩
  · simp at h

/-- To fill a file that was opened for writing leaves one file that was written. -/
theorem wrote_fill {site : Place × Name} (content : Content)
    (h : openForWriting text fs = .ok site gs) :
    fill site content gs = .ok () (gs.put site.1 site.2 (.file content)) ∧
      Wrote (site.1 ++ [site.2]) content fs (gs.put site.1 site.2 (.file content)) := by
  obtain ⟨_, opened, above, short⟩ := openForWriting_ok h
  have there : gs.at? (site.1 ++ [site.2]) = some (.file (.plain [])) := by simp [opened.at?]
  have filled := wrote_put content above short (.inr ⟨_, there⟩)
  refine ⟨rfl, filled.workingDir.trans opened.workingDir,
    filled.limits.trans opened.limits, fun q => ?_⟩
  rw [filled.at?, opened.at?]
  split <;> rfl

theorem writeFile_error {content : Content} {e : IoFault}
    (h : writeFile text content fs = .error e gs) : gs = fs := by
  cases opened : openForWriting text fs with
  | error e' left =>
      simp only [writeFile, bind, EStateM.bind, opened] at h
      cases h
      exact openForWriting_error opened
  | ok site left => simp [writeFile, bind, EStateM.bind, opened, fill] at h

theorem writeFile_ok {content : Content} (h : writeFile text content fs = .ok () gs) :
    ∃ t, fs.WritesAt text t ∧ Wrote t content fs gs := by
  cases opened : openForWriting text fs with
  | error e left => simp [writeFile, bind, EStateM.bind, opened] at h
  | ok site left =>
      obtain ⟨writes, _⟩ := openForWriting_ok opened
      obtain ⟨filled, wrote⟩ := wrote_fill content opened
      simp only [writeFile, bind, EStateM.bind, opened, filled] at h
      cases h
      exact ⟨_, writes, wrote⟩

/-- The place of a regular file that is to be copied. -/
theorem readingSite_eq_ok_iff {s : Place} :
    fs.readingSite text = .ok s ↔ fs.Arrives text s ∧
    ∃ content, fs.at? s = some (.file content) := by
  unfold readingSite
  constructor
  · intro h
    obtain ⟨⟨standing, e⟩, found, h⟩ := ok_of_bind h
    obtain ⟨way, there⟩ := lookup_eq_ok_iff.1 found
    cases e with
    | file content =>
        cases h
        exact ⟨⟨_, way⟩, content, there⟩
    | directory => cases h
    | link target => cases h
  · rintro ⟨⟨links, way⟩, content, there⟩
    simp [lookup_eq_ok_iff.2 ⟨way, there⟩, bind, Except.bind]

theorem copy_error {source target : Path} {e : IoFault} (h : copy source target fs = .error e gs) :
    gs = fs := by
  unfold copy at h
  split at h
  · cases h
    rfl
  · split at h
    · rename_i opened
      cases h
      exact openForWriting_error opened
    · simp [fill] at h

/-- A copy puts one file where the target leads: the source's content, or nothing if that is the
source itself. -/
theorem copy_ok {source target : Path} (h : copy source target fs = .ok () gs) :
    ∃ s t content, fs.Arrives source s ∧ fs.WritesAt target t ∧ Wrote t content fs gs ∧
      if s = t then content = .plain [] else fs.at? s = some (.file content) := by
  unfold copy at h
  split at h
  · simp at h
  · rename_i s reading
    split at h
    · simp at h
    · rename_i site opened open_
      obtain ⟨writes, wrote, _⟩ := openForWriting_ok open_
      obtain ⟨filled, result⟩ := wrote_fill (opened.contentAt s) open_
      rw [filled] at h
      cases h
      obtain ⟨arrive, content, there⟩ := readingSite_eq_ok_iff.1 reading
      refine ⟨s, _, _, arrive, writes, result, ?_⟩
      split
      · rename_i same
        simp [contentAt, wrote.at?, same]
      · rename_i other
        simp [contentAt, wrote.at?, other, there]

/-! ## Delivered files -/

/-- A file is at a place, the directories down to it are there, and all else is as it was. -/
structure Delivers (t : Place) (content : Content) (fs gs : FileSystem) :
    Prop extends Grows fs gs where
  at? : ∀ q, gs.at? q =
    if q = t then some (.file content) else if q <+: t then some .directory else fs.at? q

namespace Delivers

variable {content : Content}

theorem at?_self (h : Delivers t content fs gs) : gs.at? t = some (.file content) := by simp [h.at?]

end Delivers

/-! ## Filling -/

/-- Files were put at some places, directories made above them, and all else is as it was. -/
structure Fills (ts : Place → Prop) (fs gs : FileSystem) : Prop extends Grows fs gs where
  at? : ∀ q, gs.at? q = fs.at? q ∨
    (fs.at? q = none ∧ gs.at? q = some .directory ∧ ∃ t, ts t ∧ q <+: t) ∨
    (∃ content, gs.at? q = some (.file content)) ∧ ts q

namespace Fills

variable {ts ts' : Place → Prop}

theorem refl (ts : Place → Prop) (fs : FileSystem) : Fills ts fs fs := ⟨.refl fs, fun _ => .inl rfl⟩

theorem mono (weaker : ∀ t, ts t → ts' t) (h : Fills ts fs gs) : Fills ts' fs gs where
  toGrows := h.toGrows
  at? q := by
    rcases h.at? q with same | ⟨missing, new, t, there, above⟩ | ⟨file, there⟩
    · exact .inl same
    · exact .inr (.inl ⟨missing, new, t, weaker t there, above⟩)
    · exact .inr (.inr ⟨file, weaker q there⟩)

theorem trans (h : Fills ts fs gs) (h' : Fills ts gs hs) : Fills ts fs hs where
  toGrows := h.toGrows.trans h'.toGrows
  at? q := by
    rcases h'.at? q with same' | ⟨missing', new', above'⟩ | written'
    · rw [same']
      exact h.at? q
    · rcases h.at? q with same | ⟨_, new, _⟩ | ⟨⟨_, file⟩, _⟩
      · exact .inr (.inl ⟨same.symm.trans missing', new', above'⟩)
      · simp [new] at missing'
      · simp [file] at missing'
    · exact .inr (.inr written')

/-- A file that nothing was put in the place of is as it was. -/
theorem file_kept {content : Content} (h : Fills ts fs gs) (file : fs.at? q = some (.file content))
    (other : ¬ ts q) :
    gs.at? q = some (.file content) := by
  rcases h.at? q with same | ⟨missing, _⟩ | ⟨_, there⟩
  · rw [same, file]
  · simp [missing] at file
  · exact absurd there other

end Fills

/-- Directories made on the way to a place stand above it. -/
theorem MadeOnWay.fills (steady : fs.Steady text) (h : MadeOnWay text fs gs) :
    Fills (fs.LeadsTo text) fs gs where
  toGrows := h.grows
  at? q := by
    rcases h.at? q with same | ⟨missing, new, onWay⟩
    · exact .inl same
    · exact .inr (.inl ⟨missing, new, leads_of_onWay steady onWay missing⟩)

theorem Delivers.fills {content : Content} (h : Delivers t content fs gs) :
    Fills (· = t) fs gs where
  toGrows := h.toGrows
  at? q := by
    rw [h.at?]
    split
    · rename_i here
      exact .inr (.inr ⟨⟨content, rfl⟩, here⟩)
    · split
      · rename_i other above
        have new : gs.at? q = some .directory := by simp [h.at?, other, above]
        rcases h.missing_or_directory new with missing | directory
        · exact .inr (.inl ⟨missing, rfl, t, rfl, above⟩)
        · exact .inl directory.symm
      · exact .inl rfl

end FileSystem
end ClassPack
