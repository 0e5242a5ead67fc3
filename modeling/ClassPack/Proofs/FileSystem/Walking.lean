import ClassPack.FileSystem.Walk
import ClassPack.Proofs.FileSystem.Growth
import Mathlib.Data.List.Sort

/-!
# Walking — what a walk meets, and what it does not miss

* `FileSystem.branch` — what one entry of a directory adds to a walk, and `walkFrom_eq`: a walk is
  the branches of all entries in turn;
* `FileSystem.Branches` — the four kinds of branches. A link and what it leads to make one kind, for
  both are reached by following the name;
* `FileSystem.follow_of_mem_walkFrom` — what a walk meets is reached by names that it keeps,
  links followed;
* `FileSystem.mem_walkFrom_of_follow` — a walk that does not stumble misses no file that is reached
  so;
* `FileSystem.walk_ascends` — it meets all in component-wise order, and so nothing twice
  (`walk_distinct`);
* `FileSystem.walk_congr` — and it is the same where more is there, if nothing is new within its
  reach.
-/

namespace ClassPack

/-- The path at which a walk stumbles. -/
def WalkFault.path : WalkFault → Path
  | .io path _ | .loop path _ => path

/-- The text that is reached when names are added to a text one after the other. -/
def Path.downward (root : Path) (names : Place) : Path :=
  names.foldl (fun path n => path.join n.bytes) root

/-- Names come before those that go on from them. -/
theorem Place.compare_append_of_ne_nil {rel : Place} (names : Place) (some_ : rel ≠ []) :
    compare names (names ++ rel) = .lt := by
  obtain ⟨n, rest, rfl⟩ := List.exists_cons_of_ne_nil some_
  simpa using Place.compare_append_left names [] (n :: rest)

namespace FileSystem

variable {fs gs : FileSystem} {keep : Name → Bool} {here next there : Standing} {path : Path}
  {names : Place} {stack : List Enclosing} {n : Name} {content : Content}

/-! ## One name after the other -/

theorem follow_cons_eq_ok {links : Nat} {p : Place} {s : List Segment} {step : Segment} :
    fs.follow links p (step :: s) = .ok there ↔
      ∃ m, fs.follow links p [step] = .ok m ∧ fs.follow m.links m.place s = .ok there := by
  constructor
  · intro h
    exact follow_prefix (s := [step]) h
  · rintro ⟨m, first, rest⟩
    rw [show step :: s = [step] ++ s from rfl, follow_append, first]
    exact rest

/-- A name of what is no link leads to what it names. -/
theorem follow_name_of_plain {p : Place} {e : Entry} (links : Nat)
    (there : fs.at? (p ++ [n]) = some e) (plain : ∀ target, e ≠ .link target) :
    fs.follow links p [.name n] = .ok ⟨p ++ [n], links⟩ := by
  have present : fs.at? (p ++ [n]) ≠ none := by simp [there]
  have enter : fs.enterable p = .ok () := by simp [enterable, fs.at?_parent present]
  have short := fs.name_bounded present
  cases e with
  | link target => exact absurd rfl (plain target)
  | directory => simp [follow, scan, enter, short, there]
  | file content => simp [follow, scan, enter, short, there]

/-- Where no links are in the way, names can be taken as far as there is something. -/
theorem follow_of_plain {p names : Place} (links : Nat)
    (plain : ∀ r, r <+: names → ∀ target, fs.at? (p ++ r) ≠ some (.link target))
    (there : fs.at? (p ++ names) ≠ none) :
    fs.follow links p (names.map .name) = .ok ⟨p ++ names, links⟩ := by
  induction names generalizing p with
  | nil => simp [follow_nil]
  | cons n rest ih =>
      have whole : p ++ [n] ++ rest = p ++ n :: rest := by simp
      have stands : fs.at? (p ++ [n]) ≠ none := at?_ne_none_of_above there ⟨rest, whole⟩
      obtain ⟨e, present⟩ := Option.ne_none_iff_exists'.1 stands
      have first := follow_name_of_plain links present fun target same =>
        plain [n] (by simp) target (same ▸ present)
      have onward := ih (p := p ++ [n])
        (fun r above => by simpa using plain (n :: r) ((List.prefix_append_right_inj [n]).2 above))
        (by rwa [whole])
      rw [List.map_cons, follow_cons_eq_ok]
      exact ⟨_, first, by rw [onward, whole]⟩

theorem follow_of_step (h : fs.step here n path = .ok next) :
    fs.follow here.links here.place [.name n] = .ok next := by
  unfold step at h
  obtain ⟨_, _, followed⟩ := ok_of_bind h
  exact refused_ok followed

/-! ## Branches -/

/-- What one entry of a directory adds to a walk. -/
def branch (fs : FileSystem) (keep : Name → Bool) (here : Standing) (path : Path) (names : Place)
    (stack : List Enclosing) (n : Name) : List (Except WalkFault Found) :=
  let path' := path.join n.bytes
  let names' := names ++ [n]
  match fs.at? (here.place ++ [n]) with
  | none => []
  | some (.file _) => if keep n then [.ok ⟨names', path', true⟩] else []
  | some .directory =>
      if keep n then
        .ok ⟨names', path', false⟩ ::
          fs.walkFrom keep ⟨here.place ++ [n],
            here.links⟩ path' names' (⟨here.place ++ [n], path'⟩ :: stack)
      else []
  | some (.link _) =>
      match fs.step here n path' with
      | .error e => [.error (.io path' e)]
      | .ok next =>
          match fs.at? next.place with
          | some .directory =>
              match stack.find? (fun e => e.place = next.place) with
              | some ancestor => [.error (.loop path' ancestor.path)]
              | none =>
                  if keep n then
                    .ok ⟨names', path', false⟩ :: fs.walkFrom keep next path' names'
                      (⟨next.place, path'⟩ :: stack)
                  else []
          | some (.file _) => if keep n then [.ok ⟨names', path', true⟩] else []
          | _ => [.error (.io path' (.os .noEntry))]

theorem walkFrom_eq (vetted : fs.vet path = .ok ()) :
    fs.walkFrom keep here path names stack =
      (fs.children here.place).flatMap fun child =>
        fs.branch keep here path names stack child.1 := by
  rw [walkFrom, vetted]
  dsimp only
  congr 1
  funext ⟨n, e⟩
  unfold branch
  dsimp only
  -- The walk keeps the reasons of its matches to show that it ends; one after the other they go
  -- away.
  split <;> simp only [*]
  cases fs.step here n (path.join n.bytes) with
  | error e => rfl
  | ok next =>
      dsimp only
      split <;> simp only [*]
      split <;> simp only [*]

/-- What a branch can be: a link that leads nowhere or back, an entry that is passed over, a file,
or a directory with what lies below it, which is less than what was left to walk. -/
inductive Branches (fs : FileSystem) (keep : Name → Bool) (here : Standing) (path : Path)
    (names : Place) (stack : List Enclosing) (n : Name) : List (Except WalkFault Found) → Prop where
  | stumble {target : Path} (fault : WalkFault) : fs.at? (here.place ++ [n]) = some (.link target) →
      fault.path = path.join n.bytes → Branches fs keep here path names stack n [.error fault]
  | passed : keep n = false → Branches fs keep here path names stack n []
  | file {next : Standing} {content : Content} : keep n = true →
      fs.follow here.links here.place [.name n] = .ok next →
        fs.at? next.place = some (.file content) →
        Branches fs keep here path names stack n [.ok ⟨names ++ [n], path.join n.bytes, true⟩]
  | directory {next : Standing} : keep n = true →
      fs.follow here.links here.place [.name n] = .ok next → fs.at? next.place = some .directory →
      fs.remaining (⟨next.place, path.join n.bytes⟩ :: stack) next.place <
        fs.remaining stack here.place → Branches fs keep here path names stack n
          (.ok ⟨names ++ [n], path.join n.bytes, false⟩ ::
            fs.walkFrom keep next (path.join n.bytes) (names ++ [n])
              (⟨next.place, path.join n.bytes⟩ :: stack))

theorem branch_branches (present : fs.at? (here.place ++ [n]) ≠ none) :
    Branches fs keep here path names stack n (fs.branch keep here path names stack n) := by
  unfold branch
  dsimp only
  split
  · exact absurd ‹_› present
  · rename_i content there
    have followed := follow_name_of_plain here.links there (by simp)
    split
    · exact .file ‹_› followed there
    · rename_i skipped
      exact .passed (by simpa using skipped)
  · rename_i there
    have followed := follow_name_of_plain here.links there (by simp)
    split
    · exact .directory ‹_› followed there (remaining_lt_of_child there)
    · rename_i skipped
      exact .passed (by simpa using skipped)
  · -- A link is followed before the filter is asked.
    rename_i target there
    split
    · exact .stumble _ there rfl
    · rename_i next stepped
      have followed := follow_of_step stepped
      split
      · rename_i directory
        split
        · exact .stumble _ there rfl
        · rename_i outsider
          split
          · exact .directory ‹_› followed directory
              (remaining_lt_of_link ⟨next.place, _⟩ directory
                (by simpa using List.find?_eq_none.1 outsider))
          · rename_i skipped
            exact .passed (by simpa using skipped)
      · rename_i content file
        split
        · exact .file ‹_› followed file
        · rename_i skipped
          exact .passed (by simpa using skipped)
      · exact .stumble _ there rfl

/-- A walk is walked by way of the names in a directory. -/
theorem mem_walkFrom {x : Except WalkFault Found} (vetted : fs.vet path = .ok ()) :
    x ∈ fs.walkFrom keep here path names stack ↔
      ∃ n, fs.at? (here.place ++ [n]) ≠ none ∧ x ∈ fs.branch keep here path names stack n := by
  rw [walkFrom_eq vetted, List.mem_flatMap]
  constructor
  · rintro ⟨⟨n, e⟩, child, met⟩
    exact ⟨n, by simp [mem_children.1 child], met⟩
  · rintro ⟨n, present, met⟩
    obtain ⟨e, there⟩ := Option.ne_none_iff_exists'.1 present
    exact ⟨(n, e), mem_children.2 there, met⟩

/-! ## What is met -/

/-- What a walk meets below a directory is reached by names that it keeps. -/
theorem follow_of_mem_walkFrom {found : Found}
    (met : .ok found ∈ fs.walkFrom keep here path names stack) :
    ∃ rel there, rel ≠ [] ∧ found.names = names ++ rel ∧ (∀ n ∈ rel, keep n = true) ∧
      fs.follow here.links here.place (rel.map .name) = .ok there ∧
      (found.isFile = true → ∃ content, fs.at? there.place = some (.file content)) := by
  -- Induction on what is left to walk; every directory met on the way leaves less.
  induction bound : fs.remaining stack here.place using Nat.strongRecOn
    generalizing here path names stack with
  | ind m ih =>
    subst bound
    cases vetted : fs.vet path with
    | error e =>
        rw [walkFrom, vetted] at met
        simp at met
    | ok _ =>
        obtain ⟨n, present, met⟩ := (mem_walkFrom vetted).1 met
        have kinds : Branches fs keep here path names stack n _ := branch_branches present
        generalize fs.branch keep here path names stack n = added at met kinds
        cases kinds with
        | stumble fault _ _ => simp at met
        | passed _ => simp at met
        | @file next content kept followed file =>
            obtain rfl : found = _ := by simpa using met
            exact ⟨[n], next, by simp, rfl, by simpa using kept, followed, fun _ => ⟨content, file⟩⟩
        | @directory next kept followed directory less =>
            rcases List.mem_cons.1 met with same | met
            · cases same
              exact ⟨[n], next, by simp, rfl, by simpa using kept, followed, by simp⟩
            · obtain ⟨rel, there, some_, same, keeps, onward, file⟩ := ih _ less met rfl
              refine ⟨n :: rel, there, by simp, by simpa using same, ?_, ?_, file⟩
              · exact List.forall_mem_cons.2 ⟨kept, keeps⟩
              · exact follow_cons_eq_ok.2 ⟨next, followed, onward⟩

/-- A walk stumbles at a path below the one it starts from. -/
theorem path_of_error_mem_walkFrom {fault : WalkFault}
    (met : .error fault ∈ fs.walkFrom keep here path names stack) :
    ∃ r, fault.path = path.downward r := by
  induction bound : fs.remaining stack here.place using
      Nat.strongRecOn generalizing here path names stack with
  | ind m ih =>
    subst bound
    cases vetted : fs.vet path with
    | error e =>
        rw [walkFrom, vetted] at met
        cases List.mem_singleton.1 met
        exact ⟨[], rfl⟩
    | ok _ =>
        obtain ⟨n, present, met⟩ := (mem_walkFrom vetted).1 met
        have kinds : Branches fs keep here path names stack n _ := branch_branches present
        generalize fs.branch keep here path names stack n = added at met kinds
        cases kinds with
        | stumble fault' _ at_ =>
            cases List.mem_singleton.1 met
            exact ⟨[n], at_⟩
        | passed _ => simp at met
        | file _ _ _ => simp at met
        | directory _ _ _ less =>
            obtain ⟨r, same⟩ := ih _ less (by simpa using met) rfl
            exact ⟨n :: r, same⟩

/-- A walk that does not stumble below a directory misses no file there that is reached by
names it keeps. -/
theorem mem_walkFrom_of_follow {rel : Place}
    (steady : ∀ fault, .error fault ∉ fs.walkFrom keep here path names stack)
    (some_ : rel ≠ []) (keeps : ∀ n ∈ rel, keep n = true)
    (followed : fs.follow here.links here.place (rel.map .name) = .ok there)
    (file : fs.at? there.place = some (.file content)) :
    ∃ path', .ok ⟨names ++ rel, path', true⟩ ∈ fs.walkFrom keep here path names stack := by
  -- Induction on the names; each leads to a file, and is the last one, or to a directory.
  induction rel generalizing here path names stack with
  | nil => exact absurd rfl some_
  | cons n rel ih =>
      have vetted : fs.vet path = .ok () := by
        cases vetted : fs.vet path with
        | ok _ => rfl
        | error e =>
            rw [walkFrom, vetted] at steady
            exact absurd (List.mem_singleton.2 rfl) (steady _)
      have present := (follow_name_ok followed).2.2
      have within : ∀ x ∈ fs.branch keep here path names stack n,
          x ∈ fs.walkFrom keep here path names stack := fun x met =>
            (mem_walkFrom vetted).2 ⟨n, present, met⟩
      have kinds : Branches fs keep here path names stack n _ := branch_branches present
      generalize fs.branch keep here path names stack n = added at within kinds
      obtain ⟨m, first, rest⟩ := follow_cons_eq_ok.1 followed
      cases kinds with
      | stumble fault _ _ => exact absurd (within _ (by simp)) (steady fault)
      | passed skipped => simp [keeps n (List.mem_cons_self ..)] at skipped
      | @file next content' _ first' file' =>
          obtain rfl : m = next := by simpa [first] using first'
          cases rel with
          | nil => exact ⟨path.join n.bytes, within _ (by simp)⟩
          | cons n' rel =>
              -- From a file no name leads on.
              have enter := at?_of_enterable (follow_name_ok rest).1
              simp [file'] at enter
      | @directory next _ first' directory _ =>
          obtain rfl : m = next := by simpa [first] using first'
          cases rel with
          | nil =>
              obtain rfl : m = there := by simpa [follow_nil] using rest
              simp [directory] at file
          | cons n' rel =>
              obtain ⟨path', met⟩ :=
                ih (fun fault met => steady fault (within _ (List.mem_cons_of_mem _ met)))
                (by simp) (fun n there => keeps n (List.mem_cons_of_mem _ there)) rest
              exact ⟨path', within _ (List.mem_cons_of_mem _ (by simpa using met))⟩

/-! ## In order, and nothing twice -/

/-- Of two steps of a walk that meet something, the first meets what comes first, name by name. -/
def Ascends (x y : Except WalkFault Found) : Prop :=
  ∀ {found found' : Found}, x = .ok found → y = .ok found' → compare found.names found'.names = .lt

/-- Two steps of a walk that do not meet the same names. -/
def Distinct (x y : Except WalkFault Found) : Prop :=
  ∀ {found found' : Found}, x = .ok found → y = .ok found' → found.names ≠ found'.names

theorem Ascends.distinct {x y : Except WalkFault Found} (h : Ascends x y) : Distinct x y := by
  intro found found' first second same
  simpa [same, Std.ReflCmp.compare_self] using h first second

/-- A branch meets names below its own. -/
theorem names_of_mem_branch {found : Found} (present : fs.at? (here.place ++ [n]) ≠ none)
    (met : .ok found ∈ fs.branch keep here path names stack n) :
    ∃ r, found.names = names ++ n :: r := by
  have kinds : Branches fs keep here path names stack n _ := branch_branches present
  generalize fs.branch keep here path names stack n = added at met kinds
  cases kinds with
  | stumble fault _ _ => simp at met
  | passed _ => simp at met
  | file _ _ _ =>
      obtain rfl : found = _ := by simpa using met
      exact ⟨[], rfl⟩
  | directory _ _ _ _ =>
      rcases List.mem_cons.1 met with same | met
      · cases same
        exact ⟨[], rfl⟩
      · obtain ⟨rel, _, _, same, _⟩ := follow_of_mem_walkFrom met
        exact ⟨rel, by simpa using same⟩

theorem walkFrom_ascends : (fs.walkFrom keep here path names stack).Pairwise Ascends := by
  induction bound : fs.remaining stack here.place using
      Nat.strongRecOn generalizing here path names stack with
  | ind m ih =>
    subst bound
    cases vetted : fs.vet path with
    | error e =>
        rw [walkFrom, vetted]
        exact List.pairwise_singleton ..
    | ok _ =>
        rw [walkFrom_eq vetted, List.pairwise_flatMap]
        constructor
        · -- Within one branch the directory comes first, and the names below it go on from its own.
          intro child there
          have present : fs.at? (here.place ++ [child.1]) ≠ none := by simp [mem_children.1 there]
          have kinds : Branches fs keep here path names stack child.1 _ := branch_branches present
          generalize fs.branch keep here path names stack child.1 = added at kinds
          cases kinds with
          | stumble fault _ _ => exact List.pairwise_singleton ..
          | passed _ => exact List.Pairwise.nil
          | file _ _ _ => exact List.pairwise_singleton ..
          | directory _ _ _ less =>
              refine List.pairwise_cons.2 ⟨?_, ih _ less rfl⟩
              rintro y met found found' ⟨⟩ rfl
              obtain ⟨rel, _, some_, same, _⟩ := follow_of_mem_walkFrom met
              exact same ▸ Place.compare_append_of_ne_nil _ some_
        · -- Two branches differ in the name that they start with, and these names are in order.
          refine (fs.children_sorted here.place).imp_of_mem ?_
          rintro ⟨n, e⟩ ⟨n', e'⟩ there there' before x met y met' found found' rfl rfl
          obtain ⟨r, split⟩ := names_of_mem_branch (by simp [mem_children.1 there]) met
          obtain ⟨r', split'⟩ := names_of_mem_branch (by simp [mem_children.1 there']) met'
          rw [split, split', Place.compare_append_left, List.compare_cons_cons, before]
          rfl

/-! ## Where more is there -/

/-- Lists that are strictly sorted by the first halves of their members are the same if they have
the same members. -/
theorem eq_of_mem_iff_of_sorted {α β : Type} [Ord α] [Std.TransOrd α] {l m : List (α × β)}
    (sorted : l.Pairwise fun a b => compare a.1 b.1 = .lt)
    (sorted' : m.Pairwise fun a b => compare a.1 b.1 = .lt) (same : ∀ x, x ∈ l ↔ x ∈ m) :
    l = m := by
  let before : α × β → α × β → Prop := fun a b => compare a.1 b.1 = .lt
  have : Std.Irrefl before := ⟨fun a h => by simp [before, Std.ReflCmp.compare_self] at h⟩
  have : Std.Antisymm before := ⟨fun a b h h' => by
    have other : compare b.1 a.1 = .gt := Std.OrientedCmp.gt_of_lt h
    simp [before, other] at h'⟩
  exact List.Pairwise.eq_of_mem_iff (r := before) sorted sorted' same

/-- Two directories hold the same if they do so under every name. -/
theorem children_congr {p : Place} (same : ∀ n, gs.at? (p ++ [n]) = fs.at? (p ++ [n])) :
    gs.children p = fs.children p := by
  refine eq_of_mem_iff_of_sorted (gs.children_sorted p) (fs.children_sorted p) ?_
  rintro ⟨n, e⟩
  rw [mem_children, mem_children, same]

section Congruence

variable {within : Place → Prop} (more : fs.Within gs) (same : ∀ q, within q → gs.at? q = fs.at? q)
  (inside : ∀ p n, within p → within (p ++ [n]))
  (onward : ∀ p n links m, within p → fs.follow links p [.name n] = .ok m → within m.place)

include more

/-- What a name leads to without a stumble, it leads to where more is there. -/
theorem step_of_within (present : fs.at? here.place ≠ none)
    (stepped : fs.step here n path = .ok next) : gs.step here n path = .ok next := by
  unfold step at stepped ⊢
  obtain ⟨_, vetted, followed⟩ := ok_of_bind stepped
  rw [more.vet, vetted, follow_of_within more present (refused_ok followed)]
  rfl

include same inside onward

theorem branch_congr (start : within here.place) (present : fs.at? (here.place ++ [n]) ≠ none)
    (steady : ∀ fault, .error fault ∉ fs.branch keep here path names stack n)
    (below : ∀ next, within next.place →
      fs.remaining (⟨next.place, path.join n.bytes⟩ :: stack) next.place <
        fs.remaining stack here.place →
      (∀ fault, .error fault ∉ fs.walkFrom keep next (path.join n.bytes) (names ++ [n])
        (⟨next.place, path.join n.bytes⟩ :: stack)) →
      gs.walkFrom keep next (path.join n.bytes) (names ++ [n])
        (⟨next.place, path.join n.bytes⟩ :: stack) = fs.walkFrom keep next (path.join n.bytes)
        (names ++ [n]) (⟨next.place, path.join n.bytes⟩ :: stack)) :
    gs.branch keep here path names stack n = fs.branch keep here path names stack n := by
  unfold branch at steady ⊢
  rw [same _ (inside _ n start)]
  dsimp only at steady ⊢
  cases there : fs.at? (here.place ++ [n]) with
  | none => rfl
  | some e =>
      rw [there] at steady
      cases e with
      | file content => rfl
      | directory =>
          dsimp only at steady ⊢
          split
          · rename_i kept
            rw [if_pos kept] at steady
            rw [below ⟨here.place ++ [n], here.links⟩ (inside _ n start)
                (remaining_lt_of_child there) fun fault met =>
              steady fault (List.mem_cons_of_mem _ met)]
          · rfl
      | link target =>
          cases stepped : fs.step here n (path.join n.bytes) with
          | error e =>
              rw [stepped] at steady
              exact absurd (List.mem_singleton.2 rfl) (steady _)
          | ok next =>
              have above : fs.at? here.place ≠ none := by simp [fs.at?_parent present]
              have reached := onward _ _ _ _ start (follow_of_step stepped)
              rw [stepped] at steady
              rw [step_of_within more above stepped]
              dsimp only at steady ⊢
              rw [same _ reached]
              cases arrived : fs.at? next.place with
              | none => rfl
              | some e =>
                  rw [arrived] at steady
                  cases e with
                  | file content => rfl
                  | link target => rfl
                  | directory =>
                      dsimp only at steady ⊢
                      split
                      · rfl
                      · rename_i outsider
                        rw [outsider] at steady
                        split
                        · rename_i kept
                          simp only [if_pos kept] at steady
                          have less : fs.remaining (⟨next.place, path.join n.bytes⟩ :: stack)
                              next.place < fs.remaining stack here.place :=
                            remaining_lt_of_link ⟨next.place, _⟩ arrived
                              (by simpa using List.find?_eq_none.1 outsider)
                          rw [below next reached less fun fault met => steady fault
                            (List.mem_cons_of_mem _ met)]
                        · rfl

theorem walkFrom_congr (start : within here.place)
    (steady : ∀ fault, .error fault ∉ fs.walkFrom keep here path names stack) :
    gs.walkFrom keep here path names stack = fs.walkFrom keep here path names stack := by
  induction bound : fs.remaining stack here.place using
      Nat.strongRecOn generalizing here path names stack with
  | ind m ih =>
    subst bound
    cases vetted : fs.vet path with
    | error e => rw [walkFrom, walkFrom, more.vet, vetted]
    | ok _ =>
        rw [walkFrom_eq (more.vet path ▸ vetted), walkFrom_eq vetted,
          children_congr fun n => same _ (inside _ n start)]
        refine List.flatMap_congr fun child there => ?_
        have present : fs.at? (here.place ++ [child.1]) ≠ none := by simp [mem_children.1 there]
        refine branch_congr more same inside onward start present
          (fun fault met => steady fault ((mem_walkFrom vetted).2 ⟨_, present, met⟩)) ?_
        intro next reached less steady
        exact ih _ less reached steady rfl

/-- A walk that does not stumble is the same where more is there, if that is out of its reach. -/
theorem walk_congr {root : Path} (starts : fs.Starts root)
    (reached : ∀ here, fs.resolve root = .ok here → within here.place)
    (steady : ∀ fault, .error fault ∉ fs.walk keep root) :
    gs.walk keep root = fs.walk keep root := by
  cases looked : fs.lookup root with
  | error e =>
      unfold walk at steady
      rw [looked] at steady
      exact absurd (List.mem_singleton.2 rfl) (steady _)
  | ok found =>
      obtain ⟨here, e⟩ := found
      obtain ⟨resolved, there⟩ := lookup_eq_ok_iff.1 looked
      have start := reached here resolved
      have looked' : gs.lookup root = .ok (here, e) :=
        lookup_eq_ok_iff.2 ⟨resolve_of_within more starts resolved, (same _ start).trans there⟩
      unfold walk at steady ⊢
      rw [looked] at steady ⊢
      rw [looked']
      cases e with
      | file content => rfl
      | link target => rfl
      | directory =>
          dsimp only at steady ⊢
          rw [walkFrom_congr more same inside onward start fun fault met =>
            steady fault (List.mem_cons_of_mem _ met)]

end Congruence

/-! ## Whole walks -/

/-- From where the root of a walk leads, names lead to a file, links followed. -/
def LeadsToFile (fs : FileSystem) (root : Path) (names : Place) : Prop :=
  ∃ here there content, fs.resolve root = .ok here ∧
    fs.follow here.links here.place (names.map .name) = .ok there ∧
    fs.at? there.place = some (.file content)

variable {root : Path}

/-- The files that a walk meets are reached by names that it keeps, all but the root itself. -/
theorem leadsToFile_of_mem_walk {found : Found} (met : .ok found ∈ fs.walk keep root)
    (isFile : found.isFile = true) (inner : found.names ≠ []) : (∀ n ∈ found.names, keep n = true) ∧
    fs.LeadsToFile root found.names := by
  unfold walk at met
  split at met
  · simp at met
  · rename_i here looked
    rcases List.mem_cons.1 met with same | met
    · cases same
      exact absurd rfl inner
    · obtain ⟨rel, there, _, same, keeps, followed, file⟩ := follow_of_mem_walkFrom met
      obtain rfl : found.names = rel := by simpa using same
      obtain ⟨content, file⟩ := file isFile
      exact ⟨keeps, here, there, content, (lookup_eq_ok_iff.1 looked).1, followed, file⟩
  · cases List.mem_singleton.1 met
    exact absurd rfl inner

/-- A walk that does not stumble meets every file that is reached by names it keeps. -/
theorem mem_walk_of_leadsToFile (steady : ∀ fault, .error fault ∉ fs.walk keep root)
    (inner : names ≠ []) (keeps : ∀ n ∈ names, keep n = true) (leads : fs.LeadsToFile root names) :
    ∃ path, .ok ⟨names, path, true⟩ ∈ fs.walk keep root := by
  obtain ⟨here, there, content, resolved, followed, file⟩ := leads
  -- The first name is read in the directory where the root leads.
  have directory : fs.at? here.place = some .directory := by
    obtain ⟨n, rest, rfl⟩ := List.exists_cons_of_ne_nil inner
    exact at?_of_enterable (follow_name_ok followed).1
  unfold walk at steady ⊢
  rw [lookup_eq_ok_iff.2 ⟨resolved, directory⟩] at steady ⊢
  have below : ∀ fault, .error fault ∉ fs.walkFrom keep here root []
      [⟨here.place, root⟩] := fun fault met =>
    steady fault (List.mem_cons_of_mem _ met)
  obtain ⟨path, met⟩ := mem_walkFrom_of_follow below inner keeps followed file
  exact ⟨path, List.mem_cons_of_mem _ (by simpa using met)⟩

/-- A walk meets what is there in component-wise order. -/
theorem walk_ascends : (fs.walk keep root).Pairwise Ascends := by
  unfold walk
  split
  · exact List.pairwise_singleton ..
  · -- The root comes first: all that is met below it has a name.
    refine List.pairwise_cons.2 ⟨?_, walkFrom_ascends⟩
    rintro y met found found' ⟨⟩ rfl
    obtain ⟨rel, _, some_, same, _⟩ := follow_of_mem_walkFrom met
    exact same ▸ Place.compare_append_of_ne_nil _ some_
  · exact List.pairwise_singleton ..

theorem walk_distinct : (fs.walk keep root).Pairwise Distinct := walk_ascends.imp Ascends.distinct

end FileSystem
end ClassPack
