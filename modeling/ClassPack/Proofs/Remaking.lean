import ClassPack.Proofs.FileSystem.Repeating
import ClassPack.Proofs.Rebuilding

/-!
# Remaking — the output directory and the staging directory made anew once more

* `makeDir_of_createDirs` — what is made where nothing was is made last, by a call of its own;
* `remake_again` — a directory that was made where nothing was, and stands there now, can be taken
  away with all below it and made again, where more is there;
* `Config.Prepares` — the calls by which both directories are made;
* `Prepared.prepare_again` — they go well again when the run is over: both directories are there,
  nothing is in them, and everything else is as the run left it.
-/

namespace ClassPack

open FileSystem

variable {c : Config} {bare start mid fs gs hs : FileSystem} {d p q st : Place} {text : Path}
  {w w' v : Workshop}

namespace FileSystem

/-! ## One directory -/

/-- What is made where nothing was is made last; before that only directories on the way come to
be. -/
theorem makeDir_of_createDirs (steady : fs.Steady text) (leads : fs.LeadsTo text p)
    (missing : fs.at? p = none) (made : createDirs text fs = .ok () gs) :
    ∃ partly, MadeOnWay text fs partly ∧ partly.at? p = none ∧ partly.makeDir text = .ok gs := by
  have some_ : text ≠ [] := by
    rintro rfl
    cases leads
    exact steady.starts missing
  obtain ⟨t, ⟨_, resolved⟩, raised⟩ := createDirs_raised some_ steady made
  obtain rfl := (raised.toGrows.leadsTo_iff.1 (LeadsTo.of_resolve resolved)).unique leads
  have noZero : 0 ∉ text := zero_not_mem_of_vet (resolve_eq_ok_iff.1 resolved).1
  -- With nothing but dots it would lead to where it starts.
  obtain ⟨step, there, other⟩ : ∃ step ∈ text.segments, step ≠ .here := by
    by_contra only
    have dots : text.segments.filter (· ≠ .here) = [] :=
        List.filter_eq_nil_iff.2 fun step there => by
      simpa using fun other => only ⟨step, there, other⟩
    have stay := leads_filter_iff.2 leads
    rw [dots] at stay
    cases stay
    exact steady.starts missing
  obtain ⟨upper, above⟩ := Path.exists_upper noZero there other
  obtain ⟨partly, upward, tried⟩ := createDirs_cases above made
  have onWay : MadeOnWay text fs partly ∧ partly.at? t = none := by
    rcases upward with rfl | ⟨_, upward⟩
    · exact ⟨.refl _ _, missing⟩
    · have own := createDirs_made upper fs
      have whole := createDirs_parent_made above.parent fs
      rw [upward, leftBy_ok] at own whole
      exact ⟨whole, missing_of_made_upper above steady leads missing own⟩
  refine ⟨partly, onWay.1, onWay.2, tried.resolve_right ?_⟩
  rintro ⟨_, rfl⟩
  have stands : gs.at? t = some .directory := by simp [raised.at?]
  simp [onWay.2] at stands

/-- What has nothing at a place is within all that differs at and below that place only. -/
theorem Within.of_missing (h : fs.Within gs) (missing : fs.at? d = none)
    (workingDir : hs.workingDir = gs.workingDir) (limits : hs.limits = gs.limits)
    (same : ∀ q, ¬ d <+: q → hs.at? q = gs.at? q) : fs.Within hs := by
  have outside : ∀ {q e}, fs.at? q = some e → ¬ d <+: q := by
    rintro q e there ⟨r, rfl⟩
    simp [at?_append_of_missing missing r] at there
  refine ⟨workingDir.trans h.workingDir,
    limits.trans h.limits, fun there => ?_, fun there => ?_, fun there => ?_⟩
  · rw [same _ (outside there)]
    exact h.directory there
  · rw [same _ (outside there)]
    exact h.file there
  · rw [same _ (outside there)]
    exact h.link there

/-- Where nothing is, an entry is where its text leads. -/
theorem leadsTo_of_locate {n : Name} {slash : Bool}
    (found : fs.locate text = .ok (.entry d n slash)) (missing : fs.at? (d ++ [n]) = none) :
    fs.LeadsTo text (d ++ [n]) := by
  obtain ⟨before, _, steps, way, _⟩ := locate_entry found
  rw [LeadsTo, steps]
  exact (Leads.of_follow way).append (.name (by simp [missing]) (.done _))

theorem at?_remove_clear (fs : FileSystem) (dir : Place) (n : Name) (q : Place) :
    ((fs.clear (dir ++ [n])).remove (dir ++ [n])).at? q =
      if dir ++ [n] <+: q then none else fs.at? q := by
  rw [at?_remove, at?_clear]
  by_cases inside : dir ++ [n] <+: q <;> simp [inside]

/-- A directory that was made where nothing was, and is there where more is, can be taken away and
made again. -/
theorem remake_again (steady : bare.Steady text) (leads : bare.LeadsTo text d)
    (missing : bare.at? d = none) (made : createDirs text bare = .ok () mid)
    (grown : mid.Grows fs) : ∃ cut, removeTreeIfThere text fs = .ok () cut ∧
    createDirs text cut = .ok () (fs.clear d) := by
  obtain ⟨partly, onWay, gone, last⟩ := makeDir_of_createDirs steady leads missing made
  have starts := steady.starts.of_within onWay.grows.toWithin
  have within : partly.Within fs :=
    (makeDir_made (List.prefix_refl _) rfl last).grows.toWithin.trans grown.toWithin
  have isDir := isDir_of_makeDir last starts
  obtain ⟨dir, n, rfl, found, missing'⟩ := makeDir_ok last
  obtain rfl : dir ++ [n] = d :=
    (leadsTo_of_locate found missing').unique (onWay.grows.leadsTo_iff.2 leads)
  obtain ⟨_, _, _, _, above, short, _⟩ := locate_entry found
  have there : fs.at? (dir ++ [n]) = some .directory :=
    grown.directory (by simp [at?_put_of_free above (by simp [gone]) short])
  have arrives : fs.Arrives text (dir ++ [n]) := by
    have rest : partly.Grows fs := (makeDir_made (List.prefix_refl _) rfl last).grows.trans grown
    obtain ⟨p, arrive, _⟩ := isDir_iff.1 isDir
    have more := arrive.of_within grown.toWithin
      (starts.of_within (makeDir_made (List.prefix_refl _) rfl last).grows.toWithin)
    exact (rest.leadsTo_iff.1 more.leads).unique (leadsTo_of_locate found missing') ▸ more
  -- The entry is found again once it is empty, and once it is gone.
  have emptied : partly.Within (fs.clear (dir ++ [n])) := by
    refine within.of_missing gone (by simp) (by simp) fun q outside => ?_
    rw [at?_clear, if_neg fun inside => outside inside.2]
  have cut : partly.Within ((fs.clear (dir ++ [n])).remove (dir ++ [n])) :=
    within.of_missing gone (by simp) (by simp) fun q outside => by
      rw [at?_remove_clear, if_neg outside]
  refine ⟨_, removeTreeIfThere_of_entry (locate_of_within within starts found)
    (locate_of_within emptied starts found) arrives there, ?_⟩
  have some_ : text ≠ [] := by
    rintro rfl
    simp [locate, vet, bind, Except.bind] at found
  have missing'' : ((fs.clear (dir ++ [n])).remove (dir ++ [n])).at? (dir ++ [n]) = none := by
    simp [at?_remove_clear]
  refine createDirs_of_makeDir some_ ?_
  unfold makeDir
  rw [locate_of_within cut starts found]
  simp only [bind, Except.bind, missing'']
  refine congrArg Except.ok (ext_at? (fun q => ?_) (by simp) (by simp))
  have above' : ((fs.clear (dir ++ [n])).remove (dir ++ [n])).at? dir = some .directory :=
    cut.directory above
  rw [at?_put_of_free above' (by simp [missing'']) (by simpa [within.limits] using short),
    at?_remove_clear, at?_clear]
  by_cases here : q = dir ++ [n]
  · simp [here, there]
  · simp [here]

/-- A directory that was made at once is made at once where more is, but for the directory. -/
theorem make_again (starts : fs.Starts text) (leads : fs.LeadsTo text d)
    (made : fs.makeDir text = .ok hs) (within : fs.Within gs) (missing : gs.at? d = none) :
    removeTreeIfThere text gs = .ok () gs ∧ ∃ gs₁, createDirs text gs = .ok () gs₁ := by
  obtain ⟨dir, n, _, found, gone⟩ := makeDir_ok made
  obtain rfl : dir ++ [n] = d := (leadsTo_of_locate found gone).unique leads
  have found' := locate_of_within within starts found
  have some_ : text ≠ [] := by
    rintro rfl
    simp [locate, vet, bind, Except.bind] at found
  refine ⟨removeTreeIfThere_of_missing found' missing, gs.put dir n .directory,
    createDirs_of_makeDir some_ ?_⟩
  simp [makeDir, found', missing, bind, Except.bind]

theorem Raised.unique {t : Place} (h : Raised t fs gs) (h' : Raised t fs hs) : gs = hs :=
  ext_at? (fun q => (h.at? q).trans (h'.at? q).symm) (h.workingDir.trans h'.workingDir.symm)
    (h.limits.trans h'.limits.symm)

theorem Raised.within {t : Place} {fs' gs' : FileSystem} (h : Raised t fs gs)
    (h' : Raised t fs' gs') (within : fs.Within fs') : gs.Within gs' := by
  refine ⟨h'.workingDir.trans (within.workingDir.trans h.workingDir.symm),
    h'.limits.trans (within.limits.trans h.limits.symm), fun {q} there =>
      ?_, fun {q content} there => ?_,
    fun {q target} there => ?_⟩ <;> rw [h.at?] at there <;> rw [h'.at?] <;> split at there <;>
      rename_i above
  · rw [if_pos above]
  · rw [if_neg above, within.directory there]
  · cases there
  · rw [if_neg above]
    exact within.file there
  · cases there
  · rw [if_neg above, within.link there]

/-! ## The scratch file -/

/-- A file is written where more is, if nothing else stands at its place. -/
theorem writeFile_again {content : Content} (within : fs.Within gs) (starts : fs.Starts text)
    (written : writeFile text content fs = .ok () hs)
    (free : ∀ t, fs.WritesAt text t → gs.at? t = none ∨
      ∃ content, gs.at? t = some (.file content)) :
    ∃ gs₁, writeFile text content gs = .ok () gs₁ := by
  cases found : fs.writingSite text with
  | error e => simp [writeFile, openForWriting, bind, EStateM.bind, found] at written
  | ok site =>
      obtain ⟨dir, n⟩ := site
      obtain ⟨_, _, writes⟩ := writingSite_spec found
      have found' := writingSite_of_within within starts found (free _ writes)
      exact ⟨(gs.put dir n (.file (.plain []))).put dir n (.file content), by
        simp [writeFile, openForWriting, bind, EStateM.bind, found', fill]⟩

theorem Wrote.within {t : Place} {content content' : Content} {fs' gs' : FileSystem}
    (h : Wrote t content fs gs) (h' : Wrote t content' fs' gs') (within : fs.Within fs') :
    gs.Within gs' := by
  refine ⟨h'.workingDir.trans (within.workingDir.trans h.workingDir.symm),
    h'.limits.trans (within.limits.trans h.limits.symm), fun {q} there =>
      ?_, fun {q content} there => ?_,
    fun {q target} there => ?_⟩ <;> rw [h.at?] at there <;> rw [h'.at?] <;> split at there <;>
      rename_i here
  · cases there
  · rw [if_neg here, within.directory there]
  · exact ⟨_, if_pos here⟩
  · rw [if_neg here]
    exact within.file there
  · cases there
  · rw [if_neg here, within.link there]

end FileSystem

/-! ## Both directories -/

namespace Config

/-- The text of the scratch file. -/
def scratch (c : Config) : Path := Utf8.encode (joinText c.layout.stagingDir scratchName)

/-- The calls by which both directories are made: `bare` is without the old output directory and
`mid` with the new one, `low` is without an old staging directory and `made` with the new one, and
the scratch file is in `tried`. -/
structure Prepares (c : Config) (start bare mid low made tried fs : FileSystem) : Prop where
  cut : removeTreeIfThere c.destination start = .ok () bare
  outer : createDirs c.destination bare = .ok () mid
  cutStaging : removeTreeIfThere c.staging mid = .ok () low
  inner : createDirs c.staging low = .ok () made
  written : writeFile c.scratch (.plain (Utf8.encode scratchText)) made = .ok () tried
  unlinked : tried.unlink c.scratch = .ok fs

end Config

theorem prepare_calls (h : prepare c w = .ok () w') :
    ∃ bare mid low made tried, c.Prepares w.files bare mid low made tried w'.files := by
  unfold prepare recreateDir prepareStaging removeDir at h
  obtain ⟨_, w₀, logged, h⟩ := bind_eq_ok.1 h
  obtain ⟨_, w₂, outer, h⟩ := bind_eq_ok.1 h
  obtain ⟨_, w₁, cut, outer⟩ := bind_eq_ok.1 outer
  obtain ⟨_, w₄, inner, h⟩ := bind_eq_ok.1 h
  obtain ⟨_, w₃, cutStaging, inner⟩ := bind_eq_ok.1 inner
  obtain ⟨_, w₅, written, unlinked⟩ := bind_eq_ok.1 h
  have unlinked := Work.files_eq_ok unlinked
  unfold atomically at unlinked
  split at unlinked
  · rename_i gone
    cases unlinked
    have same := Work.files_of_log logged
    exact ⟨w₁.files, w₂.files, w₃.files, w₄.files, w₅.files, same ▸ Work.files_eq_ok cut,
      Work.files_eq_ok outer, Work.files_eq_ok cutStaging, Work.files_eq_ok inner,
      Work.files_eq_ok written, gone⟩
  · cases unlinked

namespace Config.Prepares

variable {low made tried : FileSystem}

/-- Calls that go well make both directories. -/
theorem prepare (h : c.Prepares w.files bare mid low made tried fs) :
    ∃ w', prepare c w = .ok () w' ∧ w'.files = fs := by
  obtain ⟨w₀, logged, same⟩ := Work.log_ok .debug s!"rebuilding {c.layout.destinationRoot}" w
  obtain ⟨cut, outer, cutStaging, inner, written, unlinked⟩ := h
  rw [← same] at cut
  have unlinked : atomically (·.unlink c.scratch) tried = .ok () fs := by
    simp [atomically, unlinked]
  exact ⟨_, bind_eq_ok.2 ⟨(), w₀, logged, bind_eq_ok.2 ⟨(), _,
    bind_eq_ok.2 ⟨(), _, Work.files_of_ok cut, Work.files_of_ok outer⟩, bind_eq_ok.2 ⟨(), _,
      bind_eq_ok.2 ⟨(), _, Work.files_of_ok cutStaging, Work.files_of_ok inner⟩,
        bind_eq_ok.2 ⟨(), _, Work.files_of_ok written, Work.files_of_ok unlinked⟩⟩⟩⟩, rfl⟩

end Config.Prepares

namespace Config.Prepared

variable (h : c.Prepared start mid fs d st)

include h

theorem steady_staging (grown : mid.Grows gs) : gs.Steady c.staging :=
  (h.steady grown).joinText h.sound.stagingDir

/-- The calls that were made. -/
theorem calls {bare' mid' low made tried : FileSystem}
    (prepares : c.Prepares start bare' mid' low made tried fs) :
    c.Prepares start (c.cleared start) mid mid fs tried fs := by
  have bare : c.cleared start = bare' := by simp [Config.cleared, without, prepares.cut]
  subst bare
  obtain ⟨t, arrive, raised⟩ :=
    createDirs_raised h.sound.destination_ne_nil (h.anchored.steady h.sound) prepares.outer
  obtain rfl := (raised.toGrows.leadsTo_iff.1 arrive.leads).unique h.outer.leads
  obtain rfl := raised.unique h.outer.raised
  have low : mid'.without c.staging = low := by simp [without, prepares.cutStaging]
  rw [without_staging h.outer h.sound] at low
  subst low
  obtain ⟨t', arrive', raised'⟩ :=
    createDirs_raised h.sound.staging_ne_nil (h.steady_staging (.refl _)) prepares.inner
  obtain rfl := (raised'.toGrows.leadsTo_iff.1 arrive'.leads).unique h.inner.leads
  obtain rfl := raised'.unique h.inner.raised
  exact prepares

/-- The staging directory was made at once. -/
theorem makeDir_staging (accepted : c.validate start = .ok ())
    (made : createDirs c.staging mid = .ok () fs) : mid.makeDir c.staging = .ok fs := by
  obtain ⟨partly, onWay, missing, last⟩ :=
    makeDir_of_createDirs (h.steady_staging (.refl _)) h.inner.leads h.inner.missing made
  suffices same : partly = mid by rwa [same] at last
  refine ext_at? (fun q => ?_) onWay.workingDir onWay.limits
  rcases onWay.at? q with same | ⟨gone, new, way⟩
  · exact same
  · -- What is above the staging directory is there already.
    have above := prefix_of_onWay (h.steady_staging (.refl _)) way gone h.inner.leads
    have other : q ≠ st := by
      rintro rfl
      simp [missing] at new
    rcases List.prefix_or_prefix_of_prefix above h.below with higher | deeper
    · exact absurd gone (h.ne_none_of_above (.refl _) higher)
    · exact absurd gone (h.ne_none_of_above (.refl _)
        (h.eq_of_above_staging accepted deeper above other ▸ List.prefix_refl _))

/-- Where the output directory is emptied, it is as when it was made. -/
theorem grows_clear (grown : mid.Grows gs) : mid.Grows (gs.clear d) := by
  refine h.grows_of_below grown (by simp) (by simp) fun q => ?_
  rw [at?_clear]
  split
  · rename_i inside
    obtain ⟨other, r, rfl⟩ := inside
    obtain ⟨n, r, rfl⟩ := List.exists_cons_of_ne_nil (show r ≠ [] by
      rintro rfl
      simp at other)
    exact .inr ⟨⟨n, r, rfl⟩, by simp⟩
  · exact .inl rfl

/-- The staging directory is made in the emptied output directory. -/
theorem staging_again (accepted : c.validate start = .ok ())
    (made : createDirs c.staging mid = .ok () fs) (grown : mid.Grows gs) :
    removeTreeIfThere c.staging (gs.clear d) = .ok () (gs.clear d) ∧
      ∃ hs, createDirs c.staging (gs.clear d) = .ok () hs ∧
        Rebuilt c.staging st (gs.clear d) hs := by
  have cleared := h.grows_clear grown
  have inside : st ≠ d := fun same => h.not_staging_above (same ▸ List.prefix_refl _)
  have missing : (gs.clear d).at? st = none := by rw [at?_clear, if_pos ⟨inside, h.below⟩]
  obtain ⟨kept, hs, inner⟩ := make_again (h.steady_staging (.refl _)).starts h.inner.leads
    (h.makeDir_staging accepted made) cleared.toWithin missing
  obtain ⟨t, arrive, raised⟩ :=
    createDirs_raised h.sound.staging_ne_nil (h.steady_staging cleared) inner
  obtain rfl := (raised.toGrows.leadsTo_iff.1 arrive.leads).unique (h.leads_staging cleared)
  exact ⟨kept, hs, inner, missing, arrive, raised⟩

/-- The scratch file comes and goes again. -/
theorem scratch_again {tried : FileSystem} (rebuilt : Rebuilt c.staging st gs hs)
    (within : mid.Within gs) (written : writeFile c.scratch (.plain (Utf8.encode scratchText)) fs =
      .ok () tried)
    (unlinked : tried.unlink c.scratch = .ok fs) :
    ∃ tried', writeFile c.scratch (.plain (Utf8.encode scratchText)) hs = .ok () tried' ∧
      tried'.unlink c.scratch = .ok hs := by
  obtain ⟨n, single⟩ := segments_scratchName
  have starts : fs.Starts c.scratch :=
    (h.steady_staging h.grows).starts.joinText descends_scratchName
  have more : fs.Within hs := h.inner.raised.within rebuilt.raised within
  obtain ⟨tried', written'⟩ := writeFile_again more starts written fun t writes => by
    obtain rfl := writesAt_scratch h.inner single writes
    exact .inl (rebuilt.at?_below n [])
  obtain ⟨t, writes, wrote⟩ := writeFile_ok written
  obtain rfl := writesAt_scratch h.inner single writes
  obtain ⟨t, writes', wrote'⟩ := writeFile_ok written'
  obtain rfl := writesAt_scratch rebuilt single writes'
  obtain ⟨dir, m, _, found, _⟩ := unlink_ok unlinked
  obtain ⟨rfl, rfl⟩ := locate_scratch h.inner single wrote writes found
  have found' := locate_of_within (wrote.within wrote' more)
    (starts.of_within (wrote.grows writes.free).toWithin) found
  have there : tried'.at? (dir ++ [m]) = some (.file (.plain (Utf8.encode scratchText))) := by
    simp [wrote'.at?]
  refine ⟨tried', written', ?_⟩
  unfold unlink
  rw [found']
  simp [bind, Except.bind, there, wrote'.remove_eq (rebuilt.at?_below m [])]

end Config.Prepared

/-- When the run is over both directories can be made again: in the output directory there is the
empty staging directory only, and everything else is as it was. -/
theorem Config.Prepared.prepare_again (h : c.Prepared w.files mid w'.files d st)
    (accepted : c.validate w.files = .ok ()) (made : prepare c w = .ok () w')
    (grown : mid.Grows v.files) : ∃ v', prepare c v = .ok () v' ∧
    Raised st (v.files.clear d) v'.files := by
  obtain ⟨_, _, _, _, _, prepares⟩ := prepare_calls made
  have prepares := h.calls prepares
  obtain ⟨cut, removed, outer⟩ :=
    remake_again (h.anchored.steady h.sound) h.outer.leads h.outer.missing prepares.outer grown
  obtain ⟨kept, hs, inner, rebuilt⟩ := h.staging_again accepted prepares.inner grown
  obtain ⟨tried, written, unlinked⟩ :=
    h.scratch_again rebuilt (h.grows_clear grown).toWithin prepares.written prepares.unlinked
  obtain ⟨v', again, rfl⟩ :=
    (Config.Prepares.mk removed outer kept inner written unlinked : c.Prepares v.files _ _ _ _
      _ _).prepare
  exact ⟨v', again, rebuilt.raised⟩

end ClassPack
