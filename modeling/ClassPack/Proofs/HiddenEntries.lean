import ClassPack.Proofs.Finding

/-!
# HiddenEntries — what a search gives does not depend on entries whose names start with a dot

* `Strewn D l m` — the list `l` is `m` with members of a kind strewn in;
* `Place.hidesBelow`, `FileSystem.shown` — a file system without the entries that have, below
  the source root, a name with a dot in front; `FileSystem.Sealed`, no other link is read by way
  of one of them;
* `FileSystem.strewn_walk` — in a walk, what those entries add is told by its names (`Dotted`);
* `hidden_entries_unseen` — two searches give the same list or fail alike where only such entries
  differ, unless a walk breaks off at a path with a dot in front of a name: links there are
  followed all the same.
-/

namespace ClassPack

open FileSystem

/-! ## Strewn lists -/

/-- A list is another one with members of a kind strewn in. -/
inductive Strewn {α : Type} (D : α → Prop) : List α → List α → Prop where
  | nil : Strewn D [] []
  | kept {l m : List α} (x : α) : Strewn D l m → Strewn D (x :: l) (x :: m)
  | extra {l m : List α} {x : α} : D x → Strewn D l m → Strewn D (x :: l) m

namespace Strewn

variable {α β : Type} {D : α → Prop} {l l' m m' : List α}

theorem refl (l : List α) : Strewn D l l := by
  induction l with
  | nil => exact .nil
  | cons x l ih => exact .kept x ih

theorem append (h : Strewn D l m) (h' : Strewn D l' m') : Strewn D (l ++ l') (m ++ m') := by
  induction h with
  | nil => exact h'
  | kept x _ ih => exact .kept x ih
  | extra odd _ ih => exact .extra odd ih

theorem of_forall (all : ∀ x ∈ l, D x) : Strewn D l [] := by
  induction l with
  | nil => exact .nil
  | cons x l ih =>
      obtain ⟨odd, rest⟩ := List.forall_mem_cons.1 all
      exact .extra odd (ih rest)

/-- Where some parts give only members of the kind, the other parts give the rest. -/
theorem flatMap_filter {parts : List β} {f g : β → List α} {keep : β → Bool}
    (kept : ∀ x ∈ parts, keep x = true → Strewn D (f x) (g x))
    (dropped : ∀ x ∈ parts, keep x = false → ∀ y ∈ f x, D y) :
    Strewn D (parts.flatMap f) ((parts.filter keep).flatMap g) := by
  induction parts with
  | nil => exact .nil
  | cons x parts ih =>
      obtain ⟨here, kept⟩ := List.forall_mem_cons.1 kept
      obtain ⟨here', dropped⟩ := List.forall_mem_cons.1 dropped
      rw [List.flatMap_cons, List.filter_cons]
      split
      · rename_i stays
        exact (here stays).append (ih kept dropped)
      · rename_i goes
        exact (of_forall (here' (by simpa using goes))).append (ih kept dropped)

theorem filterMap_eq {f : α → Option β} (h : Strewn D l m) (nothing : ∀ x ∈ l, D x → f x = none) :
    l.filterMap f = m.filterMap f := by
  induction h with
  | nil => rfl
  | kept x _ ih =>
      rw [List.filterMap_cons, List.filterMap_cons, ih (List.forall_mem_cons.1 nothing).2]
  | extra odd _ ih =>
      obtain ⟨here, nothing⟩ := List.forall_mem_cons.1 nothing
      rw [List.filterMap_cons_none (here odd), ih nothing]

/-- If the first error is none of the kind, it is the first one without the kind as well. -/
theorem untilError {ε : Type} {D : Except ε α → Prop} {l m : List (Except ε α)} (h : Strewn D l m)
    (plain : ∀ e, (untilError l).2 = some e → ¬ D (.error e)) :
    (ClassPack.untilError m).2 = (ClassPack.untilError l).2 ∧
      Strewn (fun a => D (.ok a)) (ClassPack.untilError l).1 (ClassPack.untilError m).1 := by
  induction h with
  | nil => exact ⟨rfl, .nil⟩
  | kept x _ ih =>
      cases x with
      | error e => exact ⟨rfl, .nil⟩
      | ok a =>
          obtain ⟨fault, found⟩ := ih plain
          exact ⟨fault, .kept a found⟩
  | @extra _ _ x odd _ ih =>
      cases x with
      | error e => exact absurd odd (plain e rfl)
      | ok a =>
          obtain ⟨fault, found⟩ := ih plain
          exact ⟨fault, .extra odd found⟩

end Strewn

/-! ## What is hidden below a place -/

/-- Whether there is, on the way from one place down to another, a name with a dot in front. -/
def Place.hidesBelow (p q : Place) : Bool :=
  match p.below? q with
  | some r => r.any (·.bytes.head? == some dot)
  | none => false

theorem Place.hidesBelow_iff {p q : Place} :
    p.hidesBelow q = true ↔ ∃ r, q = p ++ r ∧ ∃ n ∈ r, n.bytes.head? = some dot := by
  unfold Place.hidesBelow
  split
  · rename_i r down
    obtain rfl := Place.below?_eq_some_iff.1 down
    simp
  · rename_i apart
    simp only [Bool.false_eq_true, false_iff]
    rintro ⟨r, rfl, _⟩
    simp [Place.below?_self_append] at apart

theorem Place.hidesBelow_append {p q : Place} (n : Name) (h : p.hidesBelow q = true) :
    p.hidesBelow (q ++ [n]) = true := by
  obtain ⟨r, rfl, m, there, hidden⟩ := Place.hidesBelow_iff.1 h
  exact Place.hidesBelow_iff.2 ⟨r ++ [n], by simp, m, by simp [there], hidden⟩

theorem Place.hidesBelow_of_prefix {p q : Place} (above : q <+: p) : p.hidesBelow q = false := by
  by_contra hides
  obtain ⟨r, rfl, n, there, _⟩ := Place.hidesBelow_iff.1 (by simpa using hides)
  have short := above.length_le
  have : 0 < r.length := List.length_pos_of_mem there
  simp only [List.length_append] at short
  omega

/-- The first hidden name on a way is the last one of a place. -/
theorem Place.head?_of_hidesBelow {p q : Place} {n : Name} (shown : p.hidesBelow q = false)
    (h : p.hidesBelow (q ++ [n]) = true) : n.bytes.head? = some dot := by
  obtain ⟨r, split, m, there, hidden⟩ := Place.hidesBelow_iff.1 h
  rcases List.eq_nil_or_concat' r with rfl | ⟨front, n', rfl⟩
  · simp at there
  · obtain ⟨rfl, last⟩ := List.append_inj' (split.trans (List.append_assoc ..).symm) rfl
    obtain rfl : n = n' := by simpa using last
    rcases List.mem_append.1 there with before | here
    · have : p.hidesBelow (p ++ front) = true :=
        Place.hidesBelow_iff.2 ⟨front, rfl, m, before, hidden⟩
      simp [this] at shown
    · obtain rfl := List.mem_singleton.1 here
      exact hidden

/-! ## Without what is hidden -/

namespace FileSystem

variable {fs gs : FileSystem} {p q : Place} {root path : Path} {names : Place} {keep : Name → Bool}
  {here : Standing} {stack : List Enclosing} {n : Name}

/-- The file system without what has a name with a dot in front on the way down from a place. -/
def shown (fs : FileSystem) (p : Place) : FileSystem :=
  fs.cut p.hidesBelow (by
    cases p <;> rfl) fun _ n => Place.hidesBelow_append n

theorem at?_shown : (fs.shown p).at? q = if p.hidesBelow q then none else fs.at? q := at?_cut ..

@[simp] theorem shown_workingDir : (fs.shown p).workingDir = fs.workingDir := rfl

@[simp] theorem shown_limits : (fs.shown p).limits = fs.limits := rfl

theorem at?_shown_of_not_hides (h : p.hidesBelow q = false) : (fs.shown p).at? q = fs.at? q := by
  simp [at?_shown, h]

theorem children_shown (q : Place) :
    (fs.shown p).children q = (fs.children q).filter fun child =>
      !p.hidesBelow (q ++ [child.1]) := by
  refine eq_of_mem_iff_of_sorted ((fs.shown p).children_sorted q)
    ((fs.children_sorted q).filter _) ?_
  rintro ⟨n, e⟩
  simp [mem_children, at?_shown, and_comm]

/-- The root leads to a place, if anywhere, and neither the root nor a link that is not hidden below
this place is read by way of anything hidden below it. -/
structure Sealed (fs : FileSystem) (root : Path) (p : Place) : Prop where
  place : ∀ here, fs.resolve root = .ok here → here.place = p
  root : ∀ q, fs.Looks root q → p.hidesBelow q = false
  links : ∀ dir n target, p.hidesBelow (dir ++ [n]) = false →
    fs.at? (dir ++ [n]) = some (.link target) → ∀ q, fs.Visits (target.origin dir) target.steps q →
    p.hidesBelow q = false

namespace Sealed

variable (h : fs.Sealed root p)

include h

/-- To follow a name that is not hidden, one looks at nothing hidden. -/
theorem visits_name (start : p.hidesBelow q = false) (entry : p.hidesBelow (q ++ [n]) = false)
    {r : Place} (visits : fs.Visits q [.name n] r) : p.hidesBelow r = false := by
  cases visits with
  | start => exact start
  | entry => exact entry
  | name _ later =>
      cases later
      exact entry
  | link there later => exact h.links q n _ entry there r (by simpa using later)

theorem step_eq (start : p.hidesBelow here.place = false)
    (entry : p.hidesBelow (here.place ++ [n]) = false) :
    (fs.shown p).step here n path = fs.step here n path := by
  have same : ∀ q, fs.Visits here.place [.name n] q →
      (fs.shown p).at? q = fs.at? q := fun q visits =>
    at?_shown_of_not_hides (h.visits_name start entry visits)
  unfold step
  rw [follow_of_visits shown_limits same]
  rfl

theorem not_hides_of_step {next : Standing} (start : p.hidesBelow here.place = false)
    (entry : p.hidesBelow (here.place ++ [n]) = false) (stepped : fs.step here n path = .ok next) :
    p.hidesBelow next.place = false :=
  h.visits_name start entry (.of_leads (Leads.of_follow (follow_of_step stepped)))

end Sealed

/-! ## Walks -/

/-- What is met, or stumbled at, on a way down from the root with a dot in front of a name. -/
def Dotted (root : Path) : Except WalkFault Found → Prop
  | .ok found => ∃ n ∈ found.names, n.bytes.head? = some dot
  | .error fault =>
      ∃ names, fault.path = root.downward names ∧ ∃ n ∈ names, n.bytes.head? = some dot

/-- Under a name with a dot in front all is met or stumbled at on such a way. -/
theorem dotted_of_mem_branch (at_ : path = root.downward names)
    (present : fs.at? (here.place ++ [n]) ≠ none) (hidden : n.bytes.head? = some dot) :
    ∀ x ∈ fs.branch keep here path names stack n, Dotted root x := by
  intro x met
  cases x with
  | ok found =>
      obtain ⟨r, same⟩ := names_of_mem_branch present met
      exact ⟨n, by simp [same], hidden⟩
  | error fault =>
      have inner : ∃ r, fault.path = (path.join n.bytes).downward r := by
        have kinds : Branches fs keep here path names stack n _ := branch_branches present
        generalize fs.branch keep here path names stack n = added at met kinds
        cases kinds with
        | stumble fault' _ at_ =>
            cases List.mem_singleton.1 met
            exact ⟨[], at_⟩
        | passed _ => simp at met
        | file _ _ _ => simp at met
        | directory _ _ _ _ => exact path_of_error_mem_walkFrom (by simpa using met)
      obtain ⟨r, same⟩ := inner
      exact ⟨names ++ n :: r, by simp [same, at_, Path.downward], n, by simp, hidden⟩

theorem strewn_branch (h : fs.Sealed root p) (start : p.hidesBelow here.place = false)
    (entry : p.hidesBelow (here.place ++ [n]) = false)
    (onward : ∀ next, p.hidesBelow next.place = false →
      fs.remaining (⟨next.place, path.join n.bytes⟩ :: stack) next.place <
        fs.remaining stack here.place →
      Strewn (Dotted root)
        (fs.walkFrom keep next (path.join n.bytes) (names ++ [n])
          (⟨next.place, path.join n.bytes⟩ :: stack))
        ((fs.shown p).walkFrom keep next (path.join n.bytes) (names ++ [n])
          (⟨next.place, path.join n.bytes⟩ :: stack))) :
    Strewn (Dotted root) (fs.branch keep here path names stack n)
      ((fs.shown p).branch keep here path names stack n) := by
  unfold branch
  rw [at?_shown_of_not_hides entry]
  dsimp only
  cases there : fs.at? (here.place ++ [n]) with
  | none => exact .nil
  | some e =>
      cases e with
      | file content => exact .refl _
      | directory =>
          dsimp only
          split
          · exact .kept _ (onward ⟨here.place ++ [n],
              here.links⟩ entry (remaining_lt_of_child there))
          · exact .nil
      | link target =>
          rw [h.step_eq start entry]
          cases stepped : fs.step here n (path.join n.bytes) with
          | error e => exact .refl _
          | ok next =>
              have inner := h.not_hides_of_step start entry stepped
              dsimp only
              rw [at?_shown_of_not_hides inner]
              cases arrived : fs.at? next.place with
              | none => exact .refl _
              | some e =>
                  cases e with
                  | file content => exact .refl _
                  | link target => exact .refl _
                  | directory =>
                      dsimp only
                      split
                      · exact .refl _
                      · rename_i outsider
                        split
                        · exact .kept _ (onward next inner
                            (remaining_lt_of_link ⟨next.place, _⟩ arrived
                              (by simpa using List.find?_eq_none.1 outsider)))
                        · exact .nil

theorem strewn_walkFrom (h : fs.Sealed root p) (start : p.hidesBelow here.place = false)
    (at_ : path = root.downward names) :
    Strewn (Dotted root) (fs.walkFrom keep here path names stack)
      ((fs.shown p).walkFrom keep here path names stack) := by
  -- Induction on what is left to walk; entries are hidden by their own name, as the
  -- directory is not.
  induction bound : fs.remaining stack here.place using
      Nat.strongRecOn generalizing here path names stack with
  | ind m ih =>
    subst bound
    have same : (fs.shown p).vet path = fs.vet path := rfl
    cases vetted : fs.vet path with
    | error e =>
        rw [walkFrom, walkFrom, same, vetted]
        exact .refl _
    | ok _ =>
        rw [walkFrom_eq vetted, walkFrom_eq (same.trans vetted), children_shown]
        refine Strewn.flatMap_filter (fun child there stays => ?_) fun child there goes => ?_
        · refine strewn_branch h start (by simpa using stays) fun next inner less => ?_
          exact ih _ less inner (by simp [at_, Path.downward]) rfl
        · exact dotted_of_mem_branch at_ (by simp [mem_children.1 there])
            (Place.head?_of_hidesBelow start (by simpa using goes))

theorem strewn_walk (h : fs.Sealed root p) :
    Strewn (Dotted root) (fs.walk keep root) ((fs.shown p).walk keep root) := by
  have same : ∀ q, fs.Looks root q → (fs.shown p).at? q = fs.at? q := fun q seen =>
    at?_shown_of_not_hides (h.root q seen)
  unfold walk
  rw [lookup_of_looks shown_workingDir shown_limits same]
  split
  · exact .refl _
  · rename_i here looked
    have place := h.place here (lookup_eq_ok_iff.1 looked).1
    have start : p.hidesBelow here.place = false := by
      rw [place]
      simp [Place.hidesBelow, show p.below? p = some [] from Place.below?_eq_some_iff.2 (by simp)]
    exact .kept _ (strewn_walkFrom h start rfl)
  · exact .refl _

theorem Sealed.congr (h : fs.Sealed root p) (workingDir : gs.workingDir = fs.workingDir)
    (limits : gs.limits = fs.limits) (same : ∀ q, p.hidesBelow q = false → gs.at? q = fs.at? q) :
    gs.Sealed root p := by
  have looks : ∀ q, fs.Looks root q → gs.at? q = fs.at? q := fun q seen => same q (h.root q seen)
  refine ⟨fun here resolved => h.place here ?_, fun q seen =>
    h.root q ?_, fun dir n target entry there q seen => ?_⟩
  · rw [← resolve_of_looks workingDir limits looks]
    exact resolved
  · unfold Looks at seen looks ⊢
    rw [workingDir] at seen
    exact .of_same looks seen
  · have inner := h.links dir n target entry ((same _ entry).symm.trans there)
    exact inner q (.of_same (fun q seen => same q (inner q seen)) seen)

end FileSystem

/-! ## Searches -/

variable {fs gs : FileSystem} {p : Place} {root : String} {pattern : ArtifactPattern}
  {w v : Workshop}

theorem outcomeOf_findMatches (root : String) (pattern : ArtifactPattern) (w : Workshop) :
    outcomeOf (findMatches root pattern w) =
      match pattern.compile with
      | .error e => .error e
      | .ok selector =>
          match (untilError (visits w.files root)).2 with
          | some fault => .error (.walk root fault)
          | none =>
              .ok ((((untilError (visits w.files root)).1.filter (·.isFile)).filterMap
                Found.text?).filter selector.selects) := by
  unfold findMatches
  cases compiled : pattern.compile with
  | error e => rfl
  | ok selector =>
      rw [bind_of_ok (show Work.ofExcept (.ok selector) w = .ok selector w from rfl),
        bind_of_ok (show Work.view _ w = .ok _ w from rfl)]
      dsimp only
      rw [bind_of_ok (show Work.logAll _ _ w = .ok () _ from rfl)]
      cases (untilError (visits w.files root)).2 <;> rfl

/-- Of what a search meets, nothing with a dot in front of a name is a text. -/
theorem text?_of_dotted {found : Found} (met : .ok found ∈ visits fs root)
    (dotted : ∃ n ∈ found.names, n.bytes.head? = some dot) : found.text? = none := by
  obtain ⟨n, there, hidden⟩ := dotted
  have kept : n.isHidden = false := by
    unfold visits walk at met
    split at met
    · simp at met
    · rcases List.mem_cons.1 met with same | met
      · cases same
        simp at there
      · obtain ⟨rel, _, _, same, keeps, _⟩ := follow_of_mem_walkFrom met
        simpa using keeps n (by simpa [same] using there)
    · cases List.mem_singleton.1 met
      simp at there
  -- A name that is part of a text and starts with a dot would have been passed over.
  cases text : found.text? with
  | none => rfl
  | some spelled =>
      have whole := (isHidden_iff (Utf8.encode_of_decode? text) n there).2 hidden
      simp [kept] at whole

theorem mem_of_untilError {ε α : Type} {l : List (Except ε α)} {a : α}
    (there : a ∈ (untilError l).1) : .ok a ∈ l := by
  induction l with
  | nil => simp [untilError] at there
  | cons x rest ih =>
      cases x with
      | error e => simp [untilError] at there
      | ok b =>
          rcases List.mem_cons.1 there with rfl | later
          · exact List.mem_cons_self ..
          · exact List.mem_cons_of_mem _ (ih later)

/-- If the walk does not break off at something hidden, a search gives what it gives without
all that is. -/
theorem outcomeOf_findMatches_shown (h : w.files.Sealed (Utf8.encode root) p)
    (steady : ∀ fault, (untilError (visits w.files root)).2 = some fault →
      ¬ Dotted (Utf8.encode root) (.error fault)) :
    outcomeOf (findMatches root pattern w) =
      outcomeOf (findMatches root pattern { w with files := w.files.shown p }) := by
  have strewn : Strewn (Dotted (Utf8.encode root)) (visits w.files root)
      (visits (w.files.shown p) root) :=
    strewn_walk h
  obtain ⟨fault, found⟩ := strewn.untilError steady
  rw [outcomeOf_findMatches, outcomeOf_findMatches, fault]
  have texts : ((untilError (visits w.files root)).1.filter (·.isFile)).filterMap Found.text? =
      ((untilError (visits (w.files.shown p) root)).1.filter (·.isFile)).filterMap Found.text? := by
    rw [List.filterMap_filter, List.filterMap_filter]
    refine found.filterMap_eq fun x met dotted => ?_
    simp [text?_of_dotted (mem_of_untilError met) dotted]
  rw [texts]

/-- Entries that have a name with a dot in front below the source root do not count. Where two file
systems differ in nothing else, and nothing else is read by way of such entries, searches give the
same list or fail alike; but links under such names are followed too, and neither walk may break off
at one of them. -/
theorem hidden_entries_unseen (sealed : w.files.Sealed (Utf8.encode root) p)
    (workingDir : v.files.workingDir = w.files.workingDir)
    (limits : v.files.limits = w.files.limits)
    (same : ∀ q, p.hidesBelow q = false → v.files.at? q = w.files.at? q)
    (steady : ∀ files ∈ [w.files, v.files], ∀ fault,
      (untilError (visits files root)).2 = some fault →
        ¬ Dotted (Utf8.encode root) (.error fault)) :
    outcomeOf (findMatches root pattern v) = outcomeOf (findMatches root pattern w) := by
  have rest : v.files.shown p = w.files.shown p := by
    refine ext_at? (fun q => ?_) workingDir limits
    rw [at?_shown, at?_shown]
    split
    · rfl
    · rename_i entry
      exact same q (by simpa using entry)
  rw [outcomeOf_findMatches_shown (sealed.congr workingDir limits same) (steady _ (by simp)),
    outcomeOf_findMatches_shown sealed (steady _ (by simp)), outcomeOf_findMatches,
    outcomeOf_findMatches, rest]

/-- A game with one class file. -/
def singleGame : FileSystem :=
  ((empty {}).plant "/pz" .directory).plant "/pz/a.class" (holding "class")

/-- Where the game is. -/
def singlePlace : Place := Path.spelled (Utf8.encode "/pz")

theorem singleGame_sealed : singleGame.Sealed (Utf8.encode "/pz") singlePlace := by
  have linkless : singleGame.links = [] := by decide
  have resolved : singleGame.resolve (Utf8.encode "/pz") = .ok ⟨singlePlace, 40⟩ := by
    decide
  refine ⟨fun here way => ?_, fun q seen => ?_, fun dir n target _ there => ?_⟩
  · cases resolved.symm.trans way
    rfl
  · exact Place.hidesBelow_of_prefix (prefix_of_looks linkless (by decide) (by decide) seen)
  · exact absurd there (plain_of_links linkless _ _)

/-- One more entry that is hidden. -/
theorem at?_plant_hidden {text : String}
    (hidden : singlePlace.hidesBelow (Path.spelled (Utf8.encode text)) = true)
    (fs : FileSystem) (e : Entry) : ∀ q, singlePlace.hidesBelow q = false →
    (fs.plant text e).at? q = fs.at? q := by
  intro q shown
  refine at?_plant_of_ne ?_ fs e
  rintro rfl
  simp [hidden] at shown

/-- The game with a hidden directory that holds a class file. -/
def cachedGame : FileSystem :=
  (singleGame.plant "/pz/.cache" .directory).plant "/pz/.cache/Foo.class" (holding "hidden")

/-- The game with a hidden link to its class file. -/
def aliasedGame : FileSystem := singleGame.plant "/pz/.alias.class" (linkTo "a.class")

theorem hidden_entries_unseen_cached :
    outcomeOf (findMatches "/pz" .classFiles ⟨cachedGame, [], []⟩) = .ok ["a.class"] ∧
      outcomeOf (findMatches "/pz" .classFiles ⟨aliasedGame, [], []⟩) =
        outcomeOf (findMatches "/pz" .classFiles ⟨cachedGame, [], []⟩) := by
  have cached : ∀ q, singlePlace.hidesBelow q = false →
      cachedGame.at? q = singleGame.at? q := fun q shown =>
    (at?_plant_hidden (by decide) _ _ q shown).trans (at?_plant_hidden (by decide) _ _ q shown)
  have aliased : ∀ q, singlePlace.hidesBelow q = false → aliasedGame.at? q = singleGame.at? q :=
    at?_plant_hidden (by decide) _ _
  have steady : ∀ files ∈ [cachedGame, aliasedGame],
      (untilError (visits files "/pz")).2 = none := by
    decide +kernel
  refine ⟨by decide +kernel, hidden_entries_unseen (p := singlePlace) ?_ (by decide) ?_ ?_ ?_⟩
  · exact singleGame_sealed.congr (by decide) (by simp [cachedGame]) cached
  · simp [aliasedGame, cachedGame]
  · exact fun q shown => (aliased q shown).trans (cached q shown).symm
  · intro files there fault broken
    rw [steady files there] at broken
    cases broken

/-- The game with a hidden link that leads nowhere. -/
def goneGame : FileSystem := singleGame.plant "/pz/.gone" (linkTo "missing")

/-- The game with a hidden link that leads back. -/
def backGame : FileSystem := singleGame.plant "/pz/.back" (linkTo ".")

/-- The game with a directory whose name starts with a dot and is no text, and in it a link that
leads nowhere. -/
def garbledGame : FileSystem :=
  let name : Name := ⟨[dot, 0xff], by decide⟩
  (singleGame.put singlePlace name .directory).put (singlePlace ++ [name])
    ⟨Utf8.encode "x", by decide⟩ (linkTo "missing")

/-- Hidden links that lead nowhere or back break off a search, and so does one below a name that
is no text. -/
theorem hidden_entries_seen :
    outcomeOf (findMatches "/pz" .classFiles ⟨singleGame, [], []⟩) = .ok ["a.class"] ∧
      ∀ game ∈ [goneGame, backGame, garbledGame],
        game.workingDir = singleGame.workingDir ∧ game.limits = singleGame.limits ∧
        (∀ q, singlePlace.hidesBelow q = false → game.at? q = singleGame.at? q) ∧
        game.Sealed (Utf8.encode "/pz") singlePlace ∧
        resultOf? (findMatches "/pz" .classFiles ⟨game, [], []⟩) = none := by
  refine ⟨by decide +kernel, ?_⟩
  have same : ∀ game ∈ [goneGame, backGame, garbledGame],
      ∀ q, singlePlace.hidesBelow q = false → game.at? q = singleGame.at? q := by
    simp only [List.forall_mem_cons, List.not_mem_nil, false_imp_iff, implies_true, and_true]
    refine ⟨at?_plant_hidden (by decide) _ _, at?_plant_hidden (by decide) _ _, fun q shown => ?_⟩
    unfold garbledGame
    rw [at?_put, if_neg, at?_put, if_neg]
    · rintro ⟨_, rfl⟩
      revert shown
      decide
    · rintro ⟨_, rfl⟩
      revert shown
      decide
  have limits : ∀ game ∈ [goneGame, backGame, garbledGame], game.limits = singleGame.limits := by
    simp [goneGame, backGame, garbledGame]
  have fixed : ∀ game ∈ [goneGame, backGame, garbledGame],
      game.workingDir = singleGame.workingDir ∧
        resultOf? (findMatches "/pz" .classFiles ⟨game, [], []⟩) = none := by
    decide +kernel
  intro game there
  obtain ⟨workingDir, fails⟩ := fixed game there
  exact ⟨workingDir, limits game there, same game there,
    singleGame_sealed.congr workingDir (limits game there) (same game there), fails⟩

end ClassPack
