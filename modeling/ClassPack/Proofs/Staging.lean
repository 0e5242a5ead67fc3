import ClassPack.Proofs.FileSystem.Removing
import ClassPack.Proofs.FileSystem.Writing

/-!
# Staging — directories made anew, and single copies

* `Rebuilt text d bare fs` — a directory stands where nothing was, and nothing lies in it:
  `recreateDir_ok`, and `prepareStaging_ok` with the scratch file come and gone;
* `prepareStaging_left` — whatever comes of it, all that changes lies at the directory, below it, or
  is a new directory above it; `recreateDir_made`, above it on the way that the text takes;
* `copyFile_put` — a copy that goes well puts one file in its place, and makes directories on the
  way that the text above its target takes (`MadeFor`). It delivers the file if the target is
  steady: `copyFile_ok`;
* `kept_of_copyFile_error`, a copy that fails; `copyFile_left` and `copyFile_fills`, whatever comes
  of it.
-/

namespace ClassPack

open FileSystem

variable {path source target : String} {w w' : Workshop} {text : Path} {d : Place}
  {bare fs gs : FileSystem}

/-! ## Directories made anew -/

/-- A directory stands where nothing was, and nothing lies in it. -/
structure Rebuilt (text : Path) (d : Place) (bare fs : FileSystem) : Prop where
  missing : bare.at? d = none
  arrives : fs.Arrives text d
  raised : Raised d bare fs

namespace Rebuilt

theorem at?_self (h : Rebuilt text d bare fs) : fs.at? d = some .directory := by
  simp [h.raised.at?]

theorem at?_below (h : Rebuilt text d bare fs) (n : Name) (r : Place) :
    fs.at? (d ++ n :: r) = none := by
  have aside : ¬ d ++ n :: r <+: d := fun above => by
    have := above.length_le
    simp only [List.length_append, List.length_cons] at this
    omega
  rw [h.raised.at?, if_neg aside]
  exact at?_append_of_missing h.missing (n :: r)

theorem plain (h : Rebuilt text d bare fs) (r : Place) (target : Path) :
    fs.at? (d ++ r) ≠ some (.link target) := by
  cases r with
  | nil => simp [h.at?_self]
  | cons n r => simp [h.at?_below n r]

end Rebuilt

/-- What is made where there was no directory before is made from nothing. -/
theorem rebuilt_of_createDirs (some_ : text ≠ []) (steady : bare.Steady text)
    (noDir : bare.isDir text = false) (h : createDirs text bare = .ok () fs) :
    ∃ d, Rebuilt text d bare fs := by
  obtain ⟨d, arrives, raised⟩ := createDirs_raised some_ steady h
  refine ⟨d, ?_, arrives, raised⟩
  by_contra there
  have self : fs.at? d = some .directory := by simp [raised.at?]
  -- With all directories there before, nothing would have been made.
  have same : bare = fs := by
    refine ext_at? (fun q => ?_) raised.workingDir.symm raised.limits.symm
    rw [raised.at?]
    split
    · rename_i above
      by_cases here : q = d
      · subst here
        cases e : bare.at? q with
        | none => exact absurd e there
        | some entry =>
            cases entry with
            | directory => rfl
            | file content => simpa [self] using raised.file e
            | link target => simpa [self] using raised.link e
      · exact at?_of_above there above here
    · rfl
  rw [same] at noDir
  simp [isDir_iff.2 ⟨d, arrives, self⟩] at noDir

theorem recreateDir_ok (h : recreateDir path w = .ok () w') (some_ : Utf8.encode path ≠ [])
    (steady : (w.files.without (Utf8.encode path)).Steady (Utf8.encode path)) :
    ∃ d, Rebuilt (Utf8.encode path) d (w.files.without (Utf8.encode path)) w'.files := by
  unfold recreateDir removeDir at h
  obtain ⟨_, w₁, removed, made⟩ := bind_eq_ok.1 h
  have removed := Work.files_eq_ok removed
  rw [without, removed, leftBy_ok] at steady ⊢
  exact rebuilt_of_createDirs some_ steady (not_isDir_of_removed removed) (Work.files_eq_ok made)

/-! ## The staging directory -/

theorem segments_scratchName : ∃ n, Path.segments (Utf8.encode scratchName) = [.name n] :=
  ⟨⟨Utf8.encode scratchName, by decide⟩, by decide⟩

theorem descends_scratchName : Path.Descends (Utf8.encode scratchName) where
  relative := by decide
  noUp := by decide

/-- Where the scratch file is put. -/
theorem writesAt_scratch {t : Place} {n : Name} (h : Rebuilt (Utf8.encode path) d bare fs)
    (single : Path.segments (Utf8.encode scratchName) = [.name n])
    (writes : fs.WritesAt (Utf8.encode (joinText path scratchName)) t) : t = d ++ [n] := by
  have leads := h.arrives.leads.join descends_scratchName h.plain
  rw [← encode_joinText, single] at leads
  exact writes.leads.unique leads

/-- What is located under the scratch file's text is what was written. -/
theorem locate_scratch {n m : Name} {dir : Place} {content : Content} {slash : Bool}
    (h : Rebuilt (Utf8.encode path) d bare fs)
    (single : Path.segments (Utf8.encode scratchName) = [.name n])
    (wrote : Wrote (d ++ [n]) content fs gs)
    (writes : fs.WritesAt (Utf8.encode (joinText path scratchName)) (d ++ [n]))
    (found : gs.locate (Utf8.encode (joinText path scratchName)) = .ok (.entry dir m slash)) :
    dir = d ∧ m = n := by
  obtain ⟨before, left, steps, way, _, _, _⟩ := locate_entry found
  rw [encode_joinText, Path.segments_join descends_scratchName.relative, single] at steps
  obtain ⟨rfl, last⟩ := List.append_inj' steps rfl
  have leads := Leads.of_follow way
  rw [encode_joinText, Path.origin_join descends_scratchName.relative, wrote.workingDir] at leads
  refine ⟨((wrote.grows writes.free).leads_iff.1 leads).unique h.arrives.leads, ?_⟩
  simpa using last.symm

/-- The scratch file goes as it came. -/
theorem prepareStaging_ok (h : prepareStaging path w = .ok () w') (some_ : Utf8.encode path ≠ [])
    (steady : (w.files.without (Utf8.encode path)).Steady (Utf8.encode path)) :
    ∃ d, Rebuilt (Utf8.encode path) d (w.files.without (Utf8.encode path)) w'.files := by
  unfold prepareStaging at h
  obtain ⟨_, w₁, made, h⟩ := bind_eq_ok.1 h
  obtain ⟨_, w₂, written, unlinked⟩ := bind_eq_ok.1 h
  obtain ⟨d, rebuilt⟩ := recreateDir_ok made some_ steady
  obtain ⟨t, writes, wrote⟩ := writeFile_ok (Work.files_eq_ok written)
  obtain ⟨n, single⟩ := segments_scratchName
  obtain rfl := writesAt_scratch rebuilt single writes
  suffices same : w'.files = w₁.files by
    exact ⟨d, same ▸ rebuilt⟩
  have taken : w₂.files.unlink (Utf8.encode (joinText path scratchName)) = .ok w'.files := by
    have := Work.files_eq_ok unlinked
    unfold atomically at this
    split at this
    · rename_i gone
      cases this
      exact gone
    · simp at this
  obtain ⟨dir, m, e, found, _, there, _, removed⟩ := unlink_ok taken
  obtain ⟨rfl, rfl⟩ := locate_scratch rebuilt single wrote writes found
  rw [removed, wrote.remove_eq (rebuilt.at?_below m [])]

/-! ## Whatever comes of it -/

/-- All that changed lies where a text leads, below that, or is a new directory above it. -/
structure Around (text : Path) (fs gs : FileSystem) : Prop where
  workingDir : gs.workingDir = fs.workingDir
  limits : gs.limits = fs.limits
  at? : ∀ q, gs.at? q = fs.at? q ∨
    ∃ d, fs.LeadsTo text d ∧ (d <+: q ∨ q <+: d ∧ fs.at? q = none)

theorem FileSystem.Fills.around (h : Fills (fs.LeadsTo text) fs gs) : Around text fs gs where
  workingDir := h.workingDir
  limits := h.limits
  at? q := by
    rcases h.at? q with same | ⟨missing, _, d, leads, above⟩ | ⟨_, leads⟩
    · exact .inl same
    · exact .inr ⟨d, leads, .inr ⟨above, missing⟩⟩
    · exact .inr ⟨q, leads, .inl (List.prefix_refl _)⟩

theorem Rebuilt.leads (h : Rebuilt text d bare fs) : bare.LeadsTo text d :=
  h.raised.toGrows.leadsTo_iff.1 h.arrives.leads

theorem Rebuilt.around (h : Rebuilt text d bare fs) : Around text bare fs where
  workingDir := h.raised.workingDir
  limits := h.raised.limits
  at? q := by
    rw [h.raised.at?]
    split
    · rename_i above
      have new : fs.at? q = some .directory := by simp [h.raised.at?, above]
      rcases h.raised.missing_or_directory new with missing | directory
      · exact .inr ⟨d, h.leads, .inr ⟨above, missing⟩⟩
      · exact .inl directory.symm
    · exact .inl rfl

/-- All that changes later below the directory lies where the text leads. -/
theorem Rebuilt.around_of_below (h : Rebuilt text d bare fs)
    (workingDir : gs.workingDir = fs.workingDir) (limits : gs.limits = fs.limits)
    (below : ∀ q, gs.at? q = fs.at? q ∨ d <+: q) : Around text bare gs where
  workingDir := workingDir.trans h.around.workingDir
  limits := limits.trans h.around.limits
  at? q := by
    rcases below q with same | inside
    · rw [same]
      exact h.around.at? q
    · exact .inr ⟨d, h.leads, .inl inside⟩

/-- Once the old tree is gone as far as it can be, directories are made on the way of the text. -/
theorem recreateDir_made (path : String) (w : Workshop) :
    MadeOnWay (Utf8.encode path) (w.files.without (Utf8.encode path))
    (leftBy (recreateDir path w)).files := by
  have bare := Work.leftBy_files (.removeFailed path) (removeTreeIfThere (Utf8.encode path)) w
  unfold without
  rw [← bare]
  unfold recreateDir removeDir
  cases removal : Work.files (.removeFailed path) (removeTreeIfThere (Utf8.encode path)) w with
  | error e w₁ =>
      rw [bind_of_error removal]
      exact .refl _ _
  | ok _ w₁ =>
      rw [bind_of_ok removal, Work.leftBy_files]
      exact createDirs_made (Utf8.encode path) w₁.files

theorem recreateDir_left (path : String) (w : Workshop)
    (steady : (w.files.without (Utf8.encode path)).Steady (Utf8.encode path)) :
    Around (Utf8.encode path) (w.files.without (Utf8.encode path))
    (leftBy (recreateDir path w)).files :=
  ((recreateDir_made path w).fills steady).around

theorem prepareStaging_left (path : String) (w : Workshop) (some_ : Utf8.encode path ≠ [])
    (steady : (w.files.without (Utf8.encode path)).Steady (Utf8.encode path)) :
    Around (Utf8.encode path) (w.files.without (Utf8.encode path))
    (leftBy (prepareStaging path w)).files := by
  unfold prepareStaging
  cases made : recreateDir path w with
  | error e w₁ =>
      rw [bind_of_error made]
      simpa [made] using recreateDir_left path w steady
  | ok _ w₁ =>
      obtain ⟨d, rebuilt⟩ := recreateDir_ok made some_ steady
      rw [bind_of_ok made]
      show Around _ _ (leftBy ((Work.files (fun e => Failure.notWritable path e.message)
        (writeFile (Utf8.encode (joinText path scratchName))
          (.plain (Utf8.encode scratchText))) >>= fun _ =>
          Work.files .io (atomically (·.unlink (Utf8.encode (joinText path scratchName)))))
            w₁)).files
      cases written : Work.files (fun e => Failure.notWritable path e.message)
          (writeFile (Utf8.encode (joinText path scratchName)) (.plain (Utf8.encode scratchText)))
            w₁ with
      | error e w₂ =>
          rw [bind_of_error written]
          obtain ⟨_, failed⟩ := Work.files_eq_error written
          rw [leftBy_error, writeFile_error failed]
          exact rebuilt.around
      | ok _ w₂ =>
          rw [bind_of_ok written, Work.leftBy_files]
          obtain ⟨t, writes, wrote⟩ := writeFile_ok (Work.files_eq_ok written)
          obtain ⟨n, single⟩ := segments_scratchName
          obtain rfl := writesAt_scratch rebuilt single writes
          have filled : ∀ q, w₂.files.at? q = w₁.files.at? q ∨ d <+: q := fun q => by
            rw [wrote.at?]
            split
            · rename_i here
              exact .inr (here ▸ List.prefix_append ..)
            · exact .inl rfl
          rcases atomically_cases (·.unlink (Utf8.encode (joinText path scratchName))) w₂.files with
            same | gone
          · rw [same]
            exact rebuilt.around_of_below wrote.workingDir wrote.limits filled
          · obtain ⟨dir, m, e, found, _, _, _, removed⟩ := unlink_ok gone
            obtain ⟨rfl, rfl⟩ := locate_scratch rebuilt single wrote writes found
            rw [removed]
            refine rebuilt.around_of_below wrote.workingDir wrote.limits fun q => ?_
            rw [at?_remove]
            split
            · rename_i under
              exact .inr ((List.prefix_append ..).trans under.2)
            · exact filled q

/-- Whatever comes of it, nothing goes that was left of the old tree, and no link comes. -/
theorem prepareStaging_grows (path : String) (w : Workshop) (some_ : Utf8.encode path ≠ [])
    (steady : (w.files.without (Utf8.encode path)).Steady (Utf8.encode path)) :
    (w.files.without (Utf8.encode path)).Grows (leftBy (prepareStaging path w)).files := by
  cases prepared : prepareStaging path w with
  | ok _ w' =>
      obtain ⟨d, rebuilt⟩ := prepareStaging_ok prepared some_ steady
      exact rebuilt.raised.toGrows
  | error e w' =>
      have made := recreateDir_made path w
      unfold prepareStaging at prepared
      rcases bind_eq_error.1 prepared with stopped | ⟨_, w₁, first, prepared⟩
      · rw [stopped] at made
        exact made.grows
      · rw [first] at made
        refine made.grows.trans ?_
        -- The scratch file was not written, or it was and has stayed.
        rcases bind_eq_error.1 prepared with stopped | ⟨_, w₂, written, stopped⟩
        · obtain ⟨_, failed⟩ := Work.files_eq_error stopped
          rw [leftBy_error, writeFile_error failed]
          exact .refl _
        · obtain ⟨t, writes, wrote⟩ := writeFile_ok (Work.files_eq_ok written)
          obtain ⟨_, failed⟩ := Work.files_eq_error stopped
          rw [leftBy_error, atomically_error failed]
          exact wrote.grows writes.free

/-! ## Copies -/

/-- A directory was made on the way that the text above a target takes. -/
def MadeFor (target : Path) (fs gs : FileSystem) (q : Place) : Prop :=
  ∃ upper, Path.parent? target = some upper ∧ fs.OnWay upper q ∧ fs.at? q = none ∧
  gs.at? q = some .directory

/-- A place is as it was, or a directory was made there for a target. -/
def KeptOrMade (target : Path) (fs gs : FileSystem) (q : Place) : Prop :=
  gs.at? q = fs.at? q ∨ MadeFor target fs gs q

/-- A copy makes directories on the way of its target, up to the last of them, and then either
stops or copies. -/
theorem copyFile_cases (source target : String) (w : Workshop) :
    ∃ mid, MadeOnWay (Utf8.encode target) w.files mid ∧
      (∀ q, KeptOrMade (Utf8.encode target) w.files mid q) ∧
      ((∃ e w', copyFile source target w = .error e w' ∧ w'.files = mid) ∨
        ∃ w', copyFile source target w = .ok () w' ∧
          copy (Utf8.encode source) (Utf8.encode target) mid = .ok () w'.files) := by
  have last : ∀ w₁ : Workshop,
      (∃ e w', Work.files (.copyFailed source target)
          (copy (Utf8.encode source) (Utf8.encode target)) w₁ = .error e w' ∧ w'.files = w₁.files) ∨
        ∃ w', Work.files (.copyFailed source target)
            (copy (Utf8.encode source) (Utf8.encode target)) w₁ = .ok () w' ∧
          copy (Utf8.encode source) (Utf8.encode target) w₁.files = .ok () w'.files := by
    intro w₁
    unfold Work.files
    cases copied : copy (Utf8.encode source) (Utf8.encode target) w₁.files with
    | ok _ fs => exact .inr ⟨_, rfl, rfl⟩
    | error e fs =>
        obtain rfl := copy_error copied
        exact .inl ⟨_, _, rfl, rfl⟩
  unfold copyFile
  obtain ⟨w₀, logged, same⟩ := Work.log_ok .trace s!"copy {source} -> {target}" w
  rw [bind_of_ok logged, ← same]
  cases up : Path.parent? (Utf8.encode target) with
  | none =>
      -- There is no text above, so nothing is made.
      exact ⟨w₀.files, .refl _ _, fun _ => .inl rfl, last w₀⟩
  | some parent =>
      have made := createDirs_parent_made up w₀.files
      have kept : ∀ q, KeptOrMade (Utf8.encode target) w₀.files
          (leftBy (createDirs parent w₀.files)) q := fun q =>
        ((createDirs_made parent w₀.files).at? q).imp_right fun ⟨missing, new, onWay⟩ =>
          ⟨parent, up, onWay, missing, new⟩
      cases above : Work.files (.copyFailed source target) (createDirs parent) w₀ with
      | error e w₁ =>
          obtain ⟨_, failed⟩ := Work.files_eq_error above
          rw [failed] at made kept
          exact ⟨w₁.files, made, kept, .inl ⟨e, w₁, bind_of_error above, rfl⟩⟩
      | ok _ w₁ =>
          rw [Work.files_eq_ok above] at made kept
          refine ⟨w₁.files, made, kept, ?_⟩
          simp only
          rw [bind_of_ok above]
          exact last w₁

/-- A copy fails in one way only. -/
theorem copyFile_error {e : Failure} (h : copyFile source target w = .error e w') :
    ∃ fault, e = .copyFailed source target fault := by
  unfold copyFile at h
  rcases bind_eq_error.1 h with logged | ⟨_, w₁, _, h⟩
  · cases logged
  cases up : Path.parent? (Utf8.encode target) with
  | none =>
      rw [up] at h
      exact Work.failure_of_files h
  | some upper =>
      rw [up] at h
      rcases bind_eq_error.1 h with above | ⟨_, w₂, _, copied⟩
      · exact Work.failure_of_files above
      · exact Work.failure_of_files copied

/-- A copy that fails leaves every file and every link as it was. -/
theorem kept_of_copyFile_error {e : Failure} (h : copyFile source target w = .error e w') :
    w.files.Grows w'.files ∧ ∀ q, KeptOrMade (Utf8.encode target) w.files w'.files q := by
  obtain ⟨mid, made, kept, ⟨e', w₁, failed, rfl⟩ | ⟨_, done, _⟩⟩ := copyFile_cases source target w
  · rw [h] at failed
    cases failed
    exact ⟨made.grows, kept⟩
  · rw [h] at done
    cases done

/-- A copy that was made: the two texts, where they lead, and what was copied. -/
structure Copied where
  source : Path
  target : Path
  origin : Place
  place : Place
  content : Content

/-- A copy was put in its place, whatever its texts are like: all else is as it was, but for
directories made. A file that is its own target is empty afterwards. -/
structure Copied.Put (d : Copied) (fs gs : FileSystem) : Prop extends Grows fs gs where
  toOrigin : fs.LeadsTo d.source d.origin
  toPlace : fs.LeadsTo d.target d.place
  source : fs.Starts d.source → gs.Arrives d.source d.origin
  target : fs.Starts d.target → gs.Arrives d.target d.place
  stands : gs.at? d.place = some (.file d.content)
  content : if d.origin = d.place then d.content = .plain [] else fs.at? d.origin =
    some (.file d.content)
  kept : ∀ q, q ≠ d.place → KeptOrMade d.target fs gs q

/-- One copy, from one state to the next. A file that is its own target is empty afterwards. -/
structure Copied.Made (d : Copied) (fs gs : FileSystem) : Prop where
  source : gs.Arrives d.source d.origin
  target : gs.Arrives d.target d.place
  delivers : Delivers d.place d.content fs gs
  content : if d.origin = d.place then d.content = .plain [] else fs.at? d.origin =
    some (.file d.content)

/-- The directories that a steady target asks for are those above its place. -/
theorem Copied.Put.delivers {d : Copied} (h : d.Put fs gs) (steady : fs.Steady d.target) :
    Delivers d.place d.content fs gs where
  toGrows := h.toGrows
  at? q := by
    split
    · rename_i here
      rw [here, h.stands]
    · rename_i other
      split
      · -- What stands above the file is a directory.
        rename_i above
        exact at?_of_above (by simp [h.stands]) above other
      · rename_i aside
        rcases h.kept q other with same | ⟨upper, up, onWay, missing, _⟩
        · exact same
        · exact absurd (prefix_of_onWay steady (onWay.of_parent? up) missing h.toPlace) aside

theorem copyFile_put (h : copyFile source target w = .ok () w') :
    ∃ d : Copied, d.source = Utf8.encode source ∧ d.target = Utf8.encode target ∧
      d.Put w.files w'.files := by
  obtain ⟨mid, made, kept, ⟨_, _, failed, _⟩ | ⟨w₁, done, copied⟩⟩ := copyFile_cases source target w
  · simp [h] at failed
  obtain rfl : w' = w₁ := by simpa [h] using done
  obtain ⟨s, t, content, arrives, writes, wrote, held⟩ := copy_ok copied
  have grown := wrote.grows writes.free
  have file : w'.files.at? t = some (.file content) := by simp [wrote.at?]
  refine ⟨⟨_, _, s, t, content⟩, rfl, rfl,
    { toGrows := made.grows.trans grown
      toOrigin := made.grows.leadsTo_iff.1 arrives.leads
      toPlace := made.grows.leadsTo_iff.1 writes.leads
      source := fun starts =>
        arrives.of_within grown.toWithin (starts.of_within made.grows.toWithin)
      target := fun starts => writes.arrives grown (starts.of_within made.grows.toWithin) file
      stands := file
      content := ?_
      kept := fun q other => ?_ }⟩
  · simp only
    split
    · rename_i same
      simpa [same] using held
    · -- Directories are all that was made before, and the source is none.
      rename_i other
      rw [if_neg other] at held
      rcases made.at? s with same | ⟨_, new, _⟩
      · rw [← same, held]
      · simp [new] at held
  · have same : w'.files.at? q = mid.at? q := by rw [wrote.at?, if_neg other]
    rcases kept q with before | ⟨upper, up, onWay, missing, new⟩
    · exact .inl (same.trans before)
    · exact .inr ⟨upper, up, onWay, missing, same.trans new⟩

theorem copyFile_ok (h : copyFile source target w = .ok () w')
    (starts : w.files.Starts (Utf8.encode source)) (steady : w.files.Steady (Utf8.encode target)) :
    ∃ d : Copied, d.source = Utf8.encode source ∧ d.target = Utf8.encode target ∧
      d.Made w.files w'.files := by
  obtain ⟨d, fromSource, toTarget, put⟩ := copyFile_put h
  rw [← fromSource] at starts
  rw [← toTarget] at steady
  exact ⟨d, fromSource, toTarget, put.source starts, put.target steady.starts, put.delivers steady,
    put.content⟩

/-- Whatever comes of it, a copy fills no place but where its target leads. -/
theorem copyFile_fills (source target : String) (w : Workshop)
    (steady : w.files.Steady (Utf8.encode target)) :
    Fills (w.files.LeadsTo (Utf8.encode target)) w.files
      (leftBy (copyFile source target w)).files := by
  obtain ⟨mid, made, _, ⟨_, _, failed, rfl⟩ | ⟨w', done, _⟩⟩ := copyFile_cases source target w
  · rw [failed]
    exact made.fills steady
  · rw [done]
    obtain ⟨d, _, same, put⟩ := copyFile_put done
    rw [← same] at steady ⊢
    exact (put.delivers steady).fills.mono fun q here => by
      rw [show q = d.place from here]
      exact put.toPlace

/-- Directories of a copy are made on the way of the text above its target, also where that text
steps up from what is missing. -/
theorem copyFile_left (source target : String) (w : Workshop) :
    w.files.Grows (leftBy (copyFile source target w)).files ∧ ∀ q,
      (leftBy (copyFile source target w)).files.at? q = w.files.at? q ∨
        MadeFor (Utf8.encode target) w.files (leftBy (copyFile source target w)).files q ∨
        w.files.LeadsTo (Utf8.encode target) q ∧
          ∃ content, (leftBy (copyFile source target w)).files.at? q = some (.file content) := by
  cases copied : copyFile source target w with
  | error e w' =>
      obtain ⟨grows, kept⟩ := kept_of_copyFile_error copied
      exact ⟨grows, fun q => (kept q).imp_right .inl⟩
  | ok _ w' =>
      obtain ⟨d, _, same, put⟩ := copyFile_put copied
      refine ⟨put.toGrows, fun q => ?_⟩
      rw [leftBy_ok, ← same]
      by_cases here : q = d.place
      · subst here
        exact .inr (.inr ⟨put.toPlace, d.content, put.stands⟩)
      · exact (put.kept q here).imp_right .inl

end ClassPack
