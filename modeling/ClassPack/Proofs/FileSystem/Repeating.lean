import ClassPack.Proofs.FileSystem.Succeeding

/-!
# Repeating — calls made again where some of what they leave is there already

* `Between fs gs hs` — at every place `gs` is as `fs`, or as `hs`, which has all that `fs` has and
  no other link;
* `locate_of_within`, `writingSite_of_within` — what is found in `fs` is found again where more is
  there; `follow_or_noEntry` — a reading that arrives where more is there arrives, or misses an
  entry, where less is there;
* `createDirs_again` — directories that could be made in `fs`, and stand in `hs`, can be made in
  between.
-/

namespace ClassPack
namespace FileSystem

variable {fs gs hs fs₁ : FileSystem} {p q t : Place} {s : List Segment} {text : Path}

/-! ## In between -/

/-- At every place `gs` is as `fs`, or as `hs`, which `fs` has grown to. -/
structure Between (fs gs hs : FileSystem) : Prop where
  grows : fs.Grows hs
  workingDir : gs.workingDir = fs.workingDir
  limits : gs.limits = fs.limits
  at? : ∀ q, gs.at? q = fs.at? q ∨ gs.at? q = hs.at? q

namespace Between

theorem left (h : Between fs gs hs) : fs.Grows gs where
  workingDir := h.workingDir
  limits := h.limits
  directory {q} there := by
    rcases h.at? q with same | same
    · rw [same, there]
    · rw [same, h.grows.directory there]
  file {q content} there := by
    rcases h.at? q with same | same
    · exact ⟨content, same.trans there⟩
    · rw [same]
      exact h.grows.file there
  link {q target} there := by
    rcases h.at? q with same | same
    · rw [same, there]
    · rw [same, h.grows.link there]
  noLink {q target} there := by
    rcases h.at? q with same | same
    · rw [← same, there]
    · exact h.grows.noLink (same ▸ there)

theorem right (h : Between fs gs hs) : gs.Grows hs where
  workingDir := h.grows.workingDir.trans h.workingDir.symm
  limits := h.grows.limits.trans h.limits.symm
  directory {q} there := by
    rcases h.at? q with same | same
    · exact h.grows.directory (same ▸ there)
    · rw [← same, there]
  file {q content} there := by
    rcases h.at? q with same | same
    · exact h.grows.file (same ▸ there)
    · exact ⟨content, same ▸ there⟩
  link {q target} there := by
    rcases h.at? q with same | same
    · exact h.grows.link (same ▸ there)
    · rw [← same, there]
  noLink {q target} there := by
    rcases h.at? q with same | same
    · rw [same, h.grows.noLink there]
    · rw [same, there]

/-- Nothing is between what is the same. -/
theorem eq (h : Between fs gs fs) : gs = fs :=
  ext_at? (fun q => (h.at? q).elim id id) h.workingDir h.limits

/-- The same directories raised on both sides. -/
theorem raised {gs₁ : FileSystem} (h : Between fs gs hs) (grown : fs₁.Grows hs)
    (made : Raised t fs fs₁) (made' : Raised t gs gs₁) : Between fs₁ gs₁ hs where
  grows := grown
  workingDir := made'.workingDir.trans (h.workingDir.trans made.workingDir.symm)
  limits := made'.limits.trans (h.limits.trans made.limits.symm)
  at? q := by
    rw [made'.at?, made.at?]
    split
    · exact .inl rfl
    · exact h.at? q

/-- The same file delivered on both sides. -/
theorem delivered {gs₁ : FileSystem} {content : Content} (h : Between fs gs hs)
    (grown : fs₁.Grows hs) (made : Delivers t content fs fs₁) (made' : Delivers t content gs gs₁) :
    Between fs₁ gs₁ hs where
  grows := grown
  workingDir := made'.workingDir.trans (h.workingDir.trans made.workingDir.symm)
  limits := made'.limits.trans (h.limits.trans made.limits.symm)
  at? q := by
    rw [made'.at?, made.at?]
    split
    · exact .inl rfl
    · split
      · exact .inl rfl
      · exact h.at? q

end Between

/-! ## Found again -/

theorem locateFrom_of_within {links left : Nat} {slash : Bool} {target : Target} (h : fs.Within gs)
    (start : fs.at? p ≠ none) (found : fs.locateFrom links p s slash = .ok (target, left)) :
    gs.locateFrom links p s slash = .ok (target, left) := by
  unfold locateFrom at found ⊢
  split at found
  · exact found
  · rename_i last _
    obtain ⟨m, way, found⟩ := ok_of_bind found
    have stands := at?_ne_none_of_follow start way
    simp only [follow_of_within h start way, bind, Except.bind]
    cases last with
    | here =>
        obtain ⟨_, open_, found⟩ := ok_of_bind found
        simpa [readable, h.directory (at?_of_readable stands open_)] using found
    | up =>
        obtain ⟨_, open_, found⟩ := ok_of_bind found
        simpa [readable, h.directory (at?_of_readable stands open_)] using found
    | name n =>
        obtain ⟨_, open_, found⟩ := ok_of_bind found
        simpa [enterable, h.directory (at?_of_enterable open_), h.limits] using found

theorem locate_of_within {target : Target} (h : fs.Within gs) (starts : fs.Starts text)
    (found : fs.locate text = .ok target) : gs.locate text = .ok target := by
  unfold locate at found ⊢
  obtain ⟨_, fit, found⟩ := ok_of_bind found
  obtain ⟨⟨target', left⟩, there, found⟩ := ok_of_bind found
  cases found
  rw [h.vet, fit, h.limits, h.workingDir, locateFrom_of_within h starts (refused_ok there)]
  rfl

theorem creationSite_of_within {hops links : Nat} {slash : Bool} {dir : Place} {n : Name}
    (h : fs.Within gs) (start : fs.at? p ≠ none)
    (found : fs.creationSite hops links p s slash = .ok (dir, n))
    (free : gs.at? (dir ++ [n]) = none ∨ ∃ content, gs.at? (dir ++ [n]) = some (.file content)) :
    gs.creationSite hops links p s slash = .ok (dir, n) := by
  induction hops generalizing links p s slash with
  | zero => simp [creationSite] at found
  | succ hops ih =>
      unfold creationSite at found ⊢
      obtain ⟨⟨target, left⟩, located, found⟩ := ok_of_bind found
      rw [locateFrom_of_within h start located]
      cases target with
      | node place last => cases found
      | entry dir' n' slash' =>
          obtain ⟨before, _, way, above, _, _⟩ := locateFrom_entry located
          simp only [bind, Except.bind] at found ⊢
          split at found
          · cases found
          rename_i noSlash
          rw [if_neg noSlash]
          split at found
          · cases found
          · -- The link is there as well, and is read on.
            rename_i onward there
            rw [h.link there]
            cases left with
            | zero => cases found
            | succ left =>
                refine ih ?_ found
                unfold Path.origin
                split <;> simp [above]
          · cases found
            rcases free with missing | ⟨content, file⟩
            · rw [missing]
            · rw [file]

theorem writingSite_of_within {dir : Place} {n : Name} (h : fs.Within gs) (starts : fs.Starts text)
    (found : fs.writingSite text = .ok (dir, n))
    (free : gs.at? (dir ++ [n]) = none ∨ ∃ content, gs.at? (dir ++ [n]) = some (.file content)) :
    gs.writingSite text = .ok (dir, n) := by
  unfold writingSite at found ⊢
  obtain ⟨_, fit, site⟩ := ok_of_bind found
  rw [h.vet, fit, h.limits, h.workingDir, creationSite_of_within h starts (refused_ok site) free]
  rfl

/-- The directory of a site is there: an entry of it can be written where no directory or link
is. -/
theorem free_of_within {content : Content} (h : gs.Within hs)
    (file : hs.at? q = some (.file content)) : gs.at? q = none ∨
    ∃ content, gs.at? q = some (.file content) := by
  cases there : gs.at? q with
  | none => exact .inl rfl
  | some e =>
      cases e with
      | file content' => exact .inr ⟨content', rfl⟩
      | directory => simp [h.directory there] at file
      | link target => simp [h.link there] at file

/-- Where a text arrives already, more does not change its canonical text. -/
theorem canonical?_eq_of_follow {path : String} {m : Standing} (h : fs.Within gs)
    (starts : fs.Starts (Utf8.encode path))
    (way : fs.follow fs.limits.links (Path.origin (Utf8.encode path) fs.workingDir)
      (Path.steps (Utf8.encode path)) = .ok m) : gs.canonical? path = fs.canonical? path := by
  have stands : fs.at? m.place ≠ none := at?_ne_none_of_follow starts way
  unfold canonical?
  simp only [h.limits, h.workingDir, follow_of_within h starts way, way,
    Option.isNone_eq_false_iff.2 (Option.isSome_iff_ne_none.2 stands),
    Option.isNone_eq_false_iff.2 (Option.isSome_iff_ne_none.2 (h.ne_none stands))]

/-! ## Found where less is there -/

/-- Dots that can be read where more is there can be read where less is there. -/
theorem readable_of_more (h : fs.Within gs) (open_ : gs.readable p = .ok ()) :
    fs.readable p = .ok () := by
  unfold readable
  split
  · rfl
  · rfl
  · -- What is no directory here is none there.
    rename_i e plain there
    have more := at?_of_readable (h.ne_none (by simp [there])) open_
    rcases h.missing_or_directory more with missing | directory
    · simp [missing] at there
    · exact absurd (Option.some.inj (there.symm.trans directory)) plain

/-- What can be entered where more is there can be entered where less is there, or is missing. -/
theorem enterable_or_noEntry (h : fs.Within gs) (open_ : gs.enterable p = .ok ()) :
    fs.enterable p = .ok () ∨ fs.enterable p = .error .noEntry := by
  rcases h.missing_or_directory (at?_of_enterable open_) with missing | directory
  · exact .inr (by simp [enterable, missing])
  · exact .inl (by simp [enterable, directory])

theorem scan_or_noEntry {stretch : Stretch} (h : fs.Within gs)
    (arrive : gs.scan p s = .ok stretch) : fs.scan p s = .ok stretch ∨
    fs.scan p s = .error .noEntry := by
  fun_induction scan gs p s with
  | case1 p => exact .inl arrive
  | case3 p rest open_ ih => simpa [scan, readable_of_more h open_] using ih arrive
  | case5 p rest open_ ih => simpa [scan, readable_of_more h open_] using ih arrive
  | case9 p n rest open_ short target there =>
      rcases enterable_or_noEntry h open_ with enter | missing
      · cases less : fs.at? (p ++ [n]) with
        | none => simp [scan, enter, ← h.limits, short, less]
        | some e =>
            cases e with
            | directory => simp [h.directory less] at there
            | file content =>
                obtain ⟨_, stays⟩ := h.file less
                simp [there] at stays
            | link target' =>
                obtain rfl : target' = target := by simpa [h.link less] using there
                exact .inl (by simpa [scan, enter, ← h.limits, short, less] using arrive)
      · exact .inr (by simp [scan, missing])
  | case10 p n rest open_ short e notLink there ih =>
      rcases enterable_or_noEntry h open_ with enter | missing
      · cases less : fs.at? (p ++ [n]) with
        | none => simp [scan, enter, ← h.limits, short, less]
        | some e' =>
            have onward := ih arrive
            cases e' with
            | directory => simpa [scan, enter, ← h.limits, short, less] using onward
            | file content => simpa [scan, enter, ← h.limits, short, less] using onward
            | link target =>
                rw [h.link less] at there
                exact absurd (Option.some.inj there).symm (notLink target)
      · exact .inr (by simp [scan, missing])
  | _ => simp_all

/-- A reading that arrives where more is there arrives where less is there, or misses an entry. -/
theorem follow_or_noEntry {links : Nat} {m : Standing} (h : fs.Within gs)
    (arrive : gs.follow links p s = .ok m) : fs.follow links p s = .ok m ∨
    fs.follow links p s = .error .noEntry := by
  fun_induction follow gs links p s with
  | case2 links p s q arrived =>
      rw [follow]
      rcases scan_or_noEntry h arrived with same | missing
      · exact .inl (by rw [same]; exact arrive)
      · exact .inr (by rw [missing])
  | case4 p s dir target rest stretch left ih =>
      rw [follow]
      rcases scan_or_noEntry h stretch with same | missing
      · rw [same]
        exact ih arrive
      · exact .inr (by rw [missing])
  | _ => simp_all

/-! ## Directories made again -/

theorem isDir_of_within (h : fs.Within gs) (starts : fs.Starts text)
    (there : fs.isDir text = true) : gs.isDir text = true := by
  obtain ⟨p, arrive, directory⟩ := isDir_iff.1 there
  exact isDir_iff.2 ⟨p, arrive.of_within h starts, h.directory directory⟩

/-- Only names can be missing. -/
theorem follow_ne_noEntry {links : Nat} (noName : ∀ n, Segment.name n ∉ s) :
    fs.follow links p s ≠ .error .noEntry := by
  have read : ∀ {p}, fs.readable p ≠ .error .noEntry := fun {p} => by
    unfold readable
    split <;> simp
  have stretch : ∀ r, fs.scan p s = r → r ≠ .error .noEntry ∧
      ∀ dir target rest, r ≠ .ok (.link dir target rest) := by
    rintro _ rfl
    fun_induction scan fs p s with
    | case1 p => simp
    | case2 p rest e refused =>
        refine ⟨?_, by simp⟩
        rintro ⟨⟩
        exact read refused
    | case3 p rest _ ih => exact ih fun n there => noName n (List.mem_cons_of_mem _ there)
    | case4 p rest e refused =>
        refine ⟨?_, by simp⟩
        rintro ⟨⟩
        exact read refused
    | case5 p rest _ ih => exact ih fun n there => noName n (List.mem_cons_of_mem _ there)
    | _ => exact absurd (List.mem_cons_self ..) (noName _)
  obtain ⟨found, plain⟩ := stretch _ rfl
  rw [follow]
  split
  · rename_i e refused
    rintro ⟨⟩
    exact found refused
  · simp
  · rename_i linked
    exact absurd linked (plain _ _ _)

/-- A directory of more is one of less, or some entry on the way is missing. -/
theorem isDir_or_noEntry (h : gs.Within hs) (starts : gs.Starts text)
    (there : hs.isDir text = true) : gs.isDir text = true ∨ gs.vet text = .ok () ∧
      gs.follow gs.limits.links (text.origin gs.workingDir) text.steps = .error .noEntry := by
  obtain ⟨p, ⟨links, arrive⟩, directory⟩ := isDir_iff.1 there
  obtain ⟨fit, way⟩ := resolve_eq_ok_iff.1 arrive
  rw [h.vet] at fit
  rw [h.limits, h.workingDir] at way
  rcases follow_or_noEntry h way with same | missing
  · have stands : gs.at? p ≠ none := at?_ne_none_of_follow starts same
    exact .inl (isDir_iff.2 ⟨p, ⟨links, resolve_eq_ok_iff.2 ⟨fit, same⟩⟩,
      (h.missing_or_directory directory).resolve_left stands⟩)
  · exact .inr ⟨fit, missing⟩

/-- A directory of more that is none of less is missing there, or at least the directory
above is there. -/
theorem makeDir_noEntry_or (h : gs.Within hs) (starts : gs.Starts text)
    (there : hs.isDir text = true) (notYet : gs.isDir text = false) :
    gs.makeDir text = .error (.os .noEntry) ∨ ∃ before n m, text.segments = before ++ [.name n] ∧
      gs.follow gs.limits.links (text.origin gs.workingDir) before = .ok m ∧
      gs.at? m.place = some .directory := by
  obtain ⟨fit, missing⟩ := (isDir_or_noEntry h starts there).resolve_left (by simp [notYet])
  obtain ⟨_, ⟨_, arrive⟩, _⟩ := isDir_iff.1 there
  have way := (resolve_eq_ok_iff.1 arrive).2
  rw [h.limits, h.workingDir] at way
  have slash : ∀ n, Segment.name n ∉ (if text.endsInSlash then [.here] else [] : List Segment) := by
    intro n
    split <;> simp
  -- Where the steps before the last one miss an entry, so does the call.
  have refused : ∀ before last, text.segments = before ++ [last] →
      gs.follow gs.limits.links (text.origin gs.workingDir) before = .error .noEntry →
        gs.makeDir text = .error (.os .noEntry) := by
    intro before last steps gone
    simp [makeDir, locate, locateFrom, fit, steps, gone, bind, Except.bind, FileSystem.refused]
  rcases List.eq_nil_or_concat' text.segments with none_ | ⟨before, last, steps⟩
  · rw [Path.steps, none_, List.nil_append] at missing
    exact absurd missing (follow_ne_noEntry slash)
  · rw [Path.steps, steps, List.append_assoc] at way missing
    obtain ⟨m, front, back⟩ := follow_prefix way
    rcases follow_or_noEntry h front with same | gone
    · rw [follow_append, same] at missing
      cases last with
      | here => exact absurd missing (follow_ne_noEntry (by simp))
      | up => exact absurd missing (follow_ne_noEntry (by simp))
      | name n =>
          have stands := at?_ne_none_of_follow starts same
          have directory := at?_of_enterable (follow_name_ok back).1
          exact .inr ⟨before, n, m, steps, same,
            (h.missing_or_directory directory).resolve_left stands⟩
    · exact .inl (refused before last steps gone)

/-- A directory of more that is none of less is not written with dots alone. -/
theorem exists_upper_of_missing (h : gs.Within hs) (starts : gs.Starts text)
    (there : hs.isDir text = true) (notYet : gs.isDir text = false) :
    ∃ upper, Path.Upper text upper := by
  obtain ⟨_, ⟨_, resolved⟩, _⟩ := isDir_iff.1 there
  have noZero : 0 ∉ text := zero_not_mem_of_vet (resolve_eq_ok_iff.1 resolved).1
  have named : ∃ step ∈ text.segments, step ≠ .here := by
    by_contra only
    obtain ⟨_, missing⟩ := (isDir_or_noEntry h starts there).resolve_left (by simp [notYet])
    refine absurd missing (follow_ne_noEntry fun n name => ?_)
    rcases List.mem_append.1 name with own | own
    · exact only ⟨_, own, by simp⟩
    · split at own <;> simp at own
  obtain ⟨step, present, other⟩ := named
  exact Path.exists_upper noZero present other

/-- An attempt that goes well can be made again where more is there, or there is nothing left to
do. -/
theorem makeDir_again {partly : FileSystem} (more : partly.Within gs) (inside : gs.Within hs)
    (starts : partly.Starts text) (kept : fs₁.Within hs)
    (tried : partly.makeDir text = .ok fs₁ ∨ partly.isDir text = true ∧ fs₁ = partly) :
    (∃ gs₁, gs.makeDir text = .ok gs₁) ∨ gs.isDir text = true := by
  rcases tried with made | ⟨there, _⟩
  · have isDir := isDir_of_makeDir made starts
    obtain ⟨dir, n, rfl, found, missing⟩ := makeDir_ok made
    obtain ⟨_, _, _, _, directory, short, _⟩ := locate_entry found
    have view := at?_put_of_free (e := .directory) directory (by simp [missing]) short
    have new : (partly.put dir n .directory).at? (dir ++ [n]) = some .directory := by simp [view]
    rcases inside.missing_or_directory (kept.directory new) with gone | stands
    · refine .inl ⟨gs.put dir n .directory, ?_⟩
      simp [makeDir, locate_of_within more starts found, gone, bind, Except.bind]
    · -- All that is there after the attempt is there already.
      have within : (partly.put dir n .directory).Within gs := by
        refine ⟨by simpa using more.workingDir, by simpa using more.limits, fun {q} there =>
          ?_, fun {q _} there => ?_, fun {q _} there => ?_⟩ <;> rw [view] at there <;>
            split at there
        · rename_i here
          rw [here, stands]
        · exact more.directory there
        · cases there
        · exact more.file there
        · cases there
        · exact more.link there
      have starts' := starts.of_within (makeDir_made (List.prefix_refl _) rfl made).grows.toWithin
      exact .inr (isDir_of_within within starts' isDir)
  · exact .inr (isDir_of_within more starts there)

/-- The text above asks for fewer steps. -/
theorem Steady.parent? {upper : Path} (steady : fs.Steady text)
    (above : Path.parent? text = some upper) (some_ : upper ≠ []) : fs.Steady upper := by
  obtain ⟨⟨rest, steps⟩, absolute⟩ := (Path.segments_of_parent? above).resolve_left some_
  have origin : upper.origin fs.workingDir = text.origin fs.workingDir := by
    simp [Path.origin, absolute]
  refine ⟨?_, fun before later up => ?_⟩
  · unfold Starts
    rw [origin]
    exact steady.starts
  · rw [origin]
    exact steady.up before (later ++ rest) (by rw [← steps, up]; simp)

namespace Between

variable (h : Between fs gs hs)

include h

/-- What was made on one side is made on the other. -/
theorem of_createDirs {gs₁ : FileSystem} (some_ : text ≠ []) (steady : fs.Steady text)
    (grown : fs₁.Grows hs) (made : createDirs text fs = .ok () fs₁)
    (made' : createDirs text gs = .ok () gs₁) : Between fs₁ gs₁ hs := by
  obtain ⟨t, arrive, raised⟩ := createDirs_raised some_ steady made
  obtain ⟨t', arrive', raised'⟩ := createDirs_raised some_ (steady.of_within h.left.toWithin) made'
  have leads := raised.toGrows.leadsTo_iff.1 arrive.leads
  have leads' := h.left.leadsTo_iff.1 (raised'.toGrows.leadsTo_iff.1 arrive'.leads)
  obtain rfl := leads.unique leads'
  exact h.raised grown raised raised'

/-- The directories made above one that is there already are there as well. -/
theorem within_of_upper {upper : Path} {partly : FileSystem} {before : List Segment} {n : Name}
    {m : Standing} (above : Path.Upper text upper) (steady : fs.Steady text)
    (ends : text.segments = before ++ [.name n])
    (way : gs.follow gs.limits.links (text.origin gs.workingDir) before = .ok m)
    (there : gs.at? m.place = some .directory) (upward : createDirs upper fs = .ok () partly) :
    partly.Within gs := by
  by_cases some_ : upper = []
  · subst some_
    cases upward
    exact h.left.toWithin
  obtain ⟨u, arrive, raised⟩ := createDirs_raised some_ (steady.parent? above.parent some_) upward
  obtain ⟨k, rfl⟩ := above.steps_of_name ends
  obtain ⟨m', front, dots⟩ := follow_prefix way
  obtain rfl := follow_dots_ok dots
  rw [← above.origin_eq some_] at front
  -- Both ways come to the same directory.
  have leads := raised.toGrows.leadsTo_iff.1 arrive.leads
  obtain rfl := leads.unique (h.left.leadsTo_iff.1 (Leads.of_follow front))
  refine ⟨h.workingDir.trans raised.workingDir.symm,
    h.limits.trans raised.limits.symm, fun {q} new => ?_,
    fun {q content} new => ?_, fun {q target} new => ?_⟩ <;> rw [raised.at?] at new <;> split at new
  · rename_i higher
    by_cases here : q = m'.place
    · rw [here, there]
    · exact at?_of_above (by simp [there]) higher here
  · exact h.left.directory new
  · cases new
  · exact h.left.file new
  · cases new
  · exact h.left.link new

/-- A directory that is not there yet can be made in between, if those above it can. -/
theorem createDirs_of_upper_again {upper : Path} (above : Path.Upper text upper) (some_ : text ≠ [])
    (steady : fs.Steady text) (made : createDirs text fs = .ok () fs₁) (grown : fs₁.Grows hs)
    (there : hs.isDir text = true) (notYet : gs.isDir text = false)
    (further : ∀ partly, createDirs upper fs = .ok () partly → partly.Grows hs →
      ∃ partly', createDirs upper gs = .ok () partly' ∧ Between partly partly' hs) :
    ∃ gs₁, createDirs text gs = .ok () gs₁ := by
  obtain ⟨partly, upward, tried⟩ := createDirs_cases above made
  have partly_grows : fs.Grows partly := by
    rcases upward with rfl | ⟨_, upward⟩
    · exact .refl _
    · simpa [upward] using (createDirs_made upper fs).grows
  rcases makeDir_noEntry_or h.right.toWithin (steady.starts.of_within h.left.toWithin) there
      notYet with
    missing | ⟨before, n, m, ends, way, directory⟩
  · rcases upward with rfl | ⟨_, upward⟩
    · rcases makeDir_again h.left.toWithin h.right.toWithin steady.starts grown.toWithin tried with
        ⟨_, again⟩ | again
      · simp [missing] at again
      · simp [notYet] at again
    · -- Those above can be made again, and then there is one more attempt.
      have rest : partly.Grows hs := by
        rcases tried with last | ⟨_, rfl⟩
        · exact (makeDir_made (List.prefix_refl _) rfl last).grows.trans grown
        · exact grown
      obtain ⟨partly', upward', between⟩ := further partly upward rest
      exact createDirs_of_upper above missing upward'
        (makeDir_again between.left.toWithin between.right.toWithin
        (steady.starts.of_within partly_grows.toWithin) grown.toWithin tried)
  · have within : partly.Within gs := by
      rcases upward with rfl | ⟨_, upward⟩
      · exact h.left.toWithin
      · exact h.within_of_upper above steady ends way directory upward
    rcases makeDir_again within h.right.toWithin (steady.starts.of_within partly_grows.toWithin)
      grown.toWithin tried with ⟨gs₁, again⟩ | again
    · exact ⟨gs₁, createDirs_of_makeDir some_ again⟩
    · simp [notYet] at again

/-- Directories that could be made, and are there in the end, can be made in between. -/
theorem createDirs_again (steady : text ≠ [] → fs.Steady text)
    (made : createDirs text fs = .ok () fs₁) (grown : fs₁.Grows hs) :
    ∃ gs₁, createDirs text gs = .ok () gs₁ ∧ Between fs₁ gs₁ hs := by
  -- Induction on the number of steps: the text above asks for fewer.
  induction size : text.segments.length using Nat.strongRecOn generalizing text fs₁ with
  | ind size ih =>
    subst size
    by_cases some_ : text = []
    · subst some_
      cases made
      exact ⟨gs, rfl, h⟩
    have steady := steady some_
    suffices again : ∃ gs₁, createDirs text gs = .ok () gs₁ by
      obtain ⟨gs₁, made'⟩ := again
      exact ⟨gs₁, made', h.of_createDirs some_ steady grown made made'⟩
    cases notYet : gs.isDir text with
    | true => exact ⟨gs, createDirs_of_isDir notYet⟩
    | false =>
      have there := isDir_of_within grown.toWithin
        (steady.starts.of_within (by simpa [made] using (createDirs_made text fs).grows.toWithin))
        (isDir_of_createDirs some_ steady.starts made)
      obtain ⟨upper, above⟩ :=
        exists_upper_of_missing h.right.toWithin (steady.starts.of_within h.left.toWithin)
          there notYet
      exact h.createDirs_of_upper_again above some_ steady made grown there
          notYet fun partly upward rest =>
        ih _ above.shorter (fun top => steady.parent? above.parent top) upward rest rfl

/-- So can a file be copied that could be copied, if there is one in the end. -/
theorem copy_again {source target : Path} (startsSource : fs.Starts source)
    (startsTarget : fs.Starts target) (copied : copy source target fs = .ok () fs₁)
    (grown : fs₁.Grows hs) : ∃ gs₁, copy source target gs = .ok () gs₁ := by
  have within := h.left.toWithin
  unfold copy at copied
  split at copied
  · cases copied
  rename_i s reading
  split at copied
  · cases copied
  rename_i site opened opening
  obtain ⟨content, file⟩ : ∃ content, fs₁.at? (site.1 ++ [site.2]) = some (.file content) := by
    obtain ⟨result, wrote⟩ := wrote_fill (opened.contentAt s) opening
    rw [result] at copied
    cases copied
    simp [wrote.at?]
  obtain ⟨_, final⟩ := grown.file file
  have reading' : gs.readingSite source = .ok s := by
    obtain ⟨arrive, content, there⟩ := readingSite_eq_ok_iff.1 reading
    exact readingSite_eq_ok_iff.2 ⟨arrive.of_within within startsSource, within.file there⟩
  have opening' : openForWriting target gs =
      .ok site (gs.put site.1 site.2 (.file (.plain []))) := by
    unfold openForWriting at opening ⊢
    split at opening
    · rename_i dir n found
      cases opening
      rw [writingSite_of_within within startsTarget found (free_of_within h.right.toWithin final)]
    · cases opening
  exact copy_ok_of_open reading' opening'

end Between

end FileSystem
end ClassPack
