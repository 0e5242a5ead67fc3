import ClassPack.FileSystem.Resolve

/-!
# Leads — where steps lead, whether or not anything stands there

`FileSystem.follow` gives up at the first entry that is missing. Calls that make entries act on
places where nothing stands yet, so their effects are told by a relation that looks at links only:

* `FileSystem.Leads fs p steps q` — from `p` the steps lead to `q`, links followed, and an entry
  that is missing is stepped on like a directory. There is at most one such `q` (`Leads.unique`),
  and it depends on the links alone (`Leads.congr`);
* `Leads.of_follow` — whatever `follow` arrives at is where the steps lead;
* `Leads.of_plain` — where no links are, the names are all that counts.
-/

namespace ClassPack

/-- The names among steps. -/
def Segment.names (steps : List Segment) : Place :=
  steps.filterMap fun
    | .name n => some n
    | _ => none

namespace Segment

@[simp] theorem names_nil : names [] = [] := rfl

@[simp] theorem names_here (steps : List Segment) : names (.here :: steps) = names steps := rfl

@[simp] theorem names_name (n : Name) (steps : List Segment) :
    names (.name n :: steps) = n :: names steps := rfl

@[simp] theorem names_append (s t : List Segment) : names (s ++ t) = names s ++ names t := by
  simp [names]

@[simp] theorem names_map_name (p : Place) : names (p.map .name) = p := by
  induction p with
  | nil => rfl
  | cons n p ih => rw [List.map_cons, names_name, ih]

end Segment

/-- Of two places beside each other, what lies in the one is beside the other. -/
theorem Place.beside_of_below {p q d : Place} (below : p <+: q) (beside : ¬ p <+: d ∧ ¬ d <+: p) :
    ¬ q <+: d ∧ ¬ d <+: q := by
  refine ⟨fun above => beside.1 (below.trans above), fun under => ?_⟩
  rcases List.prefix_or_prefix_of_prefix below under with higher | deeper
  · exact beside.1 higher
  · exact beside.2 deeper

/-! ## Checks in turn -/

section Checks

variable {ε α β : Type}

/-- Checks that go well go well one by one. -/
theorem ok_of_bind {x : Except ε α} {f : α → Except ε β} {b : β} (h : (x >>= f) = .ok b) :
    ∃ a, x = .ok a ∧ f a = .ok b := by
  cases x with
  | error e => cases h
  | ok a => exact ⟨a, rfl, h⟩

theorem FileSystem.refused_ok {x : Except Errno α} {a : α} (h : refused x = .ok a) : x = .ok a := by
  cases x with
  | error e => cases h
  | ok b =>
      cases h
      rfl

end Checks

/-! ## Leading -/

namespace FileSystem

variable {fs gs : FileSystem} {p q : Place} {s t : List Segment}

/-- From one place, steps lead to another; an entry that is missing is stepped on like a
directory. -/
inductive Leads (fs : FileSystem) : Place → List Segment → Place → Prop where
  | done (p : Place) : Leads fs p [] p
  | here {p q : Place} {rest : List Segment} : Leads fs p rest q → Leads fs p (.here :: rest) q
  | up {p q : Place} {rest : List Segment} : Leads fs p.parent rest q → Leads fs p (.up :: rest) q
  | name {p q : Place} {n : Name} {rest : List Segment} :
      (∀ target, fs.at? (p ++ [n]) ≠ some (.link target)) → Leads fs (p ++ [n]) rest q →
        Leads fs p (.name n :: rest) q
  | link {p q : Place} {n : Name} {target : Path} {rest : List Segment} :
      fs.at? (p ++ [n]) = some (.link target) →
        Leads fs (target.origin p) (target.steps ++ rest) q → Leads fs p (.name n :: rest) q

namespace Leads

/-- Steps lead to one place only. -/
theorem unique {q' : Place} (h : fs.Leads p s q) (h' : fs.Leads p s q') : q = q' := by
  -- The second way takes the same steps as the first: a name is a link on both or on neither.
  induction h with
  | done p =>
      cases h'
      rfl
  | here _ ih =>
      cases h' with
      | here h' => exact ih h'
  | up _ ih =>
      cases h' with
      | up h' => exact ih h'
  | name plain _ ih =>
      cases h' with
      | name _ h' => exact ih h'
      | link there _ => exact absurd there (plain _)
  | link there _ ih =>
      cases h' with
      | name plain _ => exact absurd there (plain _)
      | link there' h' =>
          rw [there] at there'
          cases there'
          exact ih h'

theorem append {m : Place} (h : fs.Leads p s m) (h' : fs.Leads m t q) : fs.Leads p (s ++ t) q := by
  induction h with
  | done p => exact h'
  | here _ ih => exact .here (ih h')
  | up _ ih => exact .up (ih h')
  | name plain _ ih => exact .name plain (ih h')
  | link there _ ih => exact .link there (by simpa using ih h')

/-- Steps that lead somewhere lead there by way of a place in between. -/
theorem split (h : fs.Leads p (s ++ t) q) : ∃ m, fs.Leads p s m ∧ fs.Leads m t q := by
  generalize joined : s ++ t = steps at h
  -- Induction on the way; once the first part is used up, what is left of the way is that of the
  -- second.
  induction h generalizing s with
  | done p =>
      obtain ⟨rfl, rfl⟩ := List.append_eq_nil_iff.1 joined
      exact ⟨p, .done p, .done p⟩
  | here h ih =>
      cases s with
      | nil =>
          obtain rfl : t = _ := joined
          exact ⟨_, .done _, .here h⟩
      | cons first more =>
          obtain ⟨rfl, rfl⟩ := List.cons.inj joined
          obtain ⟨m, front, back⟩ := ih rfl
          exact ⟨m, .here front, back⟩
  | up h ih =>
      cases s with
      | nil =>
          obtain rfl : t = _ := joined
          exact ⟨_, .done _, .up h⟩
      | cons first more =>
          obtain ⟨rfl, rfl⟩ := List.cons.inj joined
          obtain ⟨m, front, back⟩ := ih rfl
          exact ⟨m, .up front, back⟩
  | name plain h ih =>
      cases s with
      | nil =>
          obtain rfl : t = _ := joined
          exact ⟨_, .done _, .name plain h⟩
      | cons first more =>
          obtain ⟨rfl, rfl⟩ := List.cons.inj joined
          obtain ⟨m, front, back⟩ := ih rfl
          exact ⟨m, .name plain front, back⟩
  | link there h ih =>
      cases s with
      | nil =>
          obtain rfl : t = _ := joined
          exact ⟨_, .done _, .link there h⟩
      | cons first more =>
          obtain ⟨rfl, rfl⟩ := List.cons.inj joined
          -- The target's own steps come before what is left of the first part.
          obtain ⟨m, front, back⟩ := ih (List.append_assoc ..)
          exact ⟨m, .link there front, back⟩

/-- Two file systems with the same links agree on where steps lead. -/
theorem congr (links : ∀ q target, fs.at? q = some (.link target) ↔ gs.at? q = some (.link target))
    (h : fs.Leads p s q) : gs.Leads p s q := by
  induction h with
  | done p => exact .done p
  | here _ ih => exact .here ih
  | up _ ih => exact .up ih
  | name plain _ ih => exact .name (fun target there => plain target ((links _ _).2 there)) ih
  | link there _ ih => exact .link ((links _ _).1 there) ih

/-- Where no links are on the way, the names are all that counts, as long as no step goes up. -/
theorem of_plain_way
    (plain : ∀ r, r <+: Segment.names s → ∀ target, fs.at? (p ++ r) ≠ some (.link target))
    (noUp : Segment.up ∉ s) : fs.Leads p s (p ++ Segment.names s) := by
  induction s generalizing p with
  | nil => simpa using (Leads.done p : fs.Leads p [] p)
  | cons step rest ih =>
      have later : Segment.up ∉ rest := fun there => noUp (List.mem_cons_of_mem _ there)
      cases step with
      | here => exact .here (by simpa using ih plain later)
      | up => exact absurd (List.mem_cons_self ..) noUp
      | name n =>
          have onward : ∀ r, r <+: Segment.names rest →
              ∀ target, fs.at? (p ++ [n] ++ r) ≠ some (.link target) :=
            fun r above => by
              simpa using plain (n :: r) ((List.prefix_append_right_inj [n]).2 above)
          exact .name (plain [n] (by simp)) (by simpa using ih onward later)

/-- Where no links are at all, there are none on the way. -/
theorem of_plain (plain : ∀ r target, fs.at? (p ++ r) ≠ some (.link target))
    (noUp : Segment.up ∉ s) : fs.Leads p s (p ++ Segment.names s) :=
      .of_plain_way (fun r _ => plain r) noUp

end Leads

theorem leads_cons_iff {step : Segment} :
    fs.Leads p (step :: s) q ↔ ∃ m, fs.Leads p [step] m ∧ fs.Leads m s q := by
  constructor
  · intro h
    exact Leads.split (s := [step]) h
  · rintro ⟨m, first, rest⟩
    exact first.append rest

/-- Dots do not change where steps lead. -/
theorem leads_filter_iff : fs.Leads p (s.filter (· ≠ .here)) q ↔ fs.Leads p s q := by
  induction s generalizing p with
  | nil => exact Iff.rfl
  | cons step rest ih =>
      by_cases dot : step = .here
      · subst dot
        rw [List.filter_cons_of_neg (by simp), ih]
        exact ⟨.here, fun h => by cases h; assumption⟩
      · rw [List.filter_cons_of_pos (by simpa using dot), leads_cons_iff, leads_cons_iff]
        simp only [ih]

/-- A final slash does not change where a text leads. -/
theorem leads_steps_iff (text : Path) : fs.Leads p text.steps q ↔ fs.Leads p text.segments q := by
  unfold Path.steps
  constructor
  · intro h
    obtain ⟨m, front, back⟩ := h.split
    have stay : m = q := by
      split at back
      · cases back with
        | here back =>
            cases back
            rfl
      · cases back
        rfl
    exact stay ▸ front
  · intro h
    refine h.append ?_
    split
    · exact .here (.done _)
    · exact .done _

/-! ## Following is leading -/

theorem leads_of_scan_arrived (kept : ∀ {q e}, gs.at? q = some e → fs.at? q = some e)
    (h : gs.scan p s = .ok (.arrived q)) : fs.Leads p s q := by
  fun_induction scan gs p s with
  | case1 p =>
      cases h
      exact .done _
  | case3 p rest _ ih => exact .here (ih h)
  | case5 p rest _ ih => exact .up (ih h)
  | case10 p n rest _ _ e notLink there ih =>
      exact .name (fun target link => notLink target
        (Option.some.inj ((kept there).symm.trans link))) (ih h)
  | _ => simp_all

theorem leads_of_scan_link {dir : Place} {target : Path} {rest : List Segment}
    (kept : ∀ {q e}, gs.at? q = some e → fs.at? q = some e)
    (h : gs.scan p s = .ok (.link dir target rest))
    (onward : fs.Leads (target.origin dir) (target.steps ++ rest) q) : fs.Leads p s q := by
  fun_induction scan gs p s with
  | case3 p rest _ ih => exact .here (ih h)
  | case5 p rest _ ih => exact .up (ih h)
  | case9 p n rest _ _ target there =>
      cases h
      exact .link (kept there) onward
  | case10 p n rest _ _ e notLink there ih =>
      exact .name (fun target link => notLink target
        (Option.some.inj ((kept there).symm.trans link))) (ih h)
  | _ => simp_all

/-- Whatever is arrived at is where the steps lead, also where more entries are. -/
theorem Leads.of_follow_of_kept {links : Nat} {standing : Standing}
    (kept : ∀ {q e}, gs.at? q = some e → fs.at? q = some e)
    (h : gs.follow links p s = .ok standing) : fs.Leads p s standing.place := by
  -- Each link ends one stretch and begins the next.
  fun_induction follow gs links p s with
  | case2 links p s q arrived =>
      cases h
      exact leads_of_scan_arrived kept arrived
  | case4 p s dir target rest stretch left ih => exact leads_of_scan_link kept stretch (ih h)
  | _ => simp_all

/-- Whatever is arrived at is where the steps lead. -/
theorem Leads.of_follow {links : Nat} {standing : Standing}
    (h : fs.follow links p s = .ok standing) : fs.Leads p s standing.place :=
      .of_follow_of_kept id h

/-! ## One step after the other -/

theorem follow_here_ok {links : Nat} {standing : Standing}
    (h : fs.follow links p (.here :: s) = .ok standing) :
    fs.readable p = .ok () ∧ fs.follow links p s = .ok standing := by
  unfold follow at h ⊢
  unfold scan at h
  cases read : fs.readable p with
  | error e => simp [read] at h
  | ok _ => exact ⟨rfl, by simpa [read] using h⟩

/-- A final slash is read where the text leads. -/
theorem follow_slash_ok {links : Nat} {slash : Bool} {standing : Standing}
    (h : fs.follow links p (if slash then [.here] else []) = .ok standing) :
    standing = ⟨p, links⟩ := by
  have stay : fs.follow links p [] = .ok standing := by
    split at h
    · exact (follow_here_ok h).2
    · exact h
  rw [follow_nil] at stay
  cases stay
  rfl

theorem follow_up_ok {links : Nat} {standing : Standing}
    (h : fs.follow links p (.up :: s) = .ok standing) :
    fs.readable p = .ok () ∧ fs.follow links p.parent s = .ok standing := by
  unfold follow at h ⊢
  unfold scan at h
  cases read : fs.readable p with
  | error e => simp [read] at h
  | ok _ => exact ⟨rfl, by simpa [read] using h⟩

theorem follow_name_ok {links : Nat} {n : Name} {standing : Standing}
    (h : fs.follow links p (.name n :: s) = .ok standing) :
    fs.enterable p = .ok () ∧ exceeds n.bytes.length fs.limits.name = false ∧
    fs.at? (p ++ [n]) ≠ none := by
  unfold follow scan at h
  cases enter : fs.enterable p with
  | error e => simp [enter] at h
  | ok _ =>
      cases long : exceeds n.bytes.length fs.limits.name with
      | true => simp [enter, long] at h
      | false =>
          cases there : fs.at? (p ++ [n]) with
          | none => simp [enter, long, there] at h
          | some e => simp

/-! ## Where one arrives, something stands -/

theorem at?_append_of_missing (h : fs.at? p = none) (r : Place) : fs.at? (p ++ r) = none := by
  cases r with
  | nil => simpa using h
  | cons n r => exact at?_below_eq_none (by simp [h]) n r

theorem at?_of_above (h : fs.at? q ≠ none) (above : p <+: q) (other : p ≠ q) :
    fs.at? p = some .directory := by
  obtain ⟨r, rfl⟩ := above
  obtain ⟨n, r, rfl⟩ : ∃ n r', r = n :: r' := List.exists_cons_of_ne_nil (by simpa using other)
  apply Classical.byContradiction
  intro notDir
  exact h (at?_below_eq_none notDir n r)

theorem at?_place_parent (h : fs.at? p ≠ none) : fs.at? p.parent = some .directory := by
  rcases List.eq_nil_or_concat p with rfl | ⟨above, n, rfl⟩
  · exact fs.at?_root
  · have : fs.at? above = some .directory := fs.at?_parent (n := n) (by simpa using h)
    simp [Place.parent, this]

theorem at?_parent_ne_none (h : fs.at? p ≠ none) : fs.at? p.parent ≠ none := by
  simp [at?_place_parent h]

theorem at?_of_enterable (h : fs.enterable p = .ok ()) : fs.at? p = some .directory := by
  unfold enterable at h
  split at h <;> simp_all

theorem at?_ne_none_of_above (h : fs.at? q ≠ none) (above : p <+: q) : fs.at? p ≠ none := by
  by_cases here : p = q
  · rwa [here]
  · simp [at?_of_above h above here]

theorem at?_ne_none_of_scan (start : fs.at? p ≠ none) (h : fs.scan p s = .ok (.arrived q)) :
    fs.at? q ≠ none := by
  fun_induction scan fs p s with
  | case1 p =>
      cases h
      exact start
  | case3 p rest _ ih => exact ih start h
  | case5 p rest _ ih => exact ih (at?_parent_ne_none start) h
  | case10 p n rest _ _ e _ there ih => exact ih (by simp [there]) h
  | _ => simp_all

theorem at?_origin_of_scan {dir : Place} {target : Path} {rest : List Segment}
    (h : fs.scan p s = .ok (.link dir target rest)) :
    fs.at? (target.origin dir) = some .directory := by
  fun_induction scan fs p s with
  | case3 p rest _ ih => exact ih h
  | case5 p rest _ ih => exact ih h
  | case9 p n rest entered _ target there =>
      cases h
      have : fs.at? dir = some .directory := at?_of_enterable entered
      unfold Path.origin
      split <;> simp [this]
  | case10 p n rest _ _ e _ there ih => exact ih h
  | _ => simp_all

theorem origin_ne_none_of_scan {dir : Place} {target : Path} {rest : List Segment}
    (h : fs.scan p s = .ok (.link dir target rest)) : fs.at? (target.origin dir) ≠ none := by
  simp [at?_origin_of_scan h]

theorem at?_ne_none_of_follow {links : Nat} {standing : Standing} (start : fs.at? p ≠ none)
    (h : fs.follow links p s = .ok standing) : fs.at? standing.place ≠ none := by
  fun_induction follow fs links p s with
  | case2 links p s q arrived =>
      cases h
      exact at?_ne_none_of_scan start arrived
  | case4 p s dir target rest stretch left ih => exact ih (origin_ne_none_of_scan stretch) h
  | _ => simp_all

/-! ## No reading ends at a link -/

theorem plain_of_scan (start : ∃ e, fs.at? p = some e ∧ ∀ target, e ≠ .link target)
    (h : fs.scan p s = .ok (.arrived q)) : ∀ target, fs.at? q ≠ some (.link target) := by
  fun_induction scan fs p s with
  | case1 p =>
      obtain ⟨e, there, plain⟩ := start
      cases h
      exact fun target isLink => plain target (Option.some.inj (there.symm.trans isLink))
  | case3 p rest _ ih => exact ih start h
  | case5 p rest read ih =>
      obtain ⟨e, there, _⟩ := start
      exact ih ⟨.directory, at?_place_parent (by simp [there]), by simp⟩ h
  | case10 p n rest _ _ e notLink there ih => exact ih ⟨e, there, notLink⟩ h
  | _ => simp_all

/-- Read from a directory, no steps end at a link. -/
theorem plain_of_follow {links : Nat} {there : Standing} (start : fs.at? p = some .directory)
    (h : fs.follow links p s = .ok there) : ∀ target, fs.at? there.place ≠ some (.link target) := by
  fun_induction follow fs links p s with
  | case2 links p s q arrived =>
      cases h
      exact plain_of_scan ⟨.directory, start, by simp⟩ arrived
  | case4 p s dir target rest stretch left ih =>
      exact ih (at?_origin_of_scan stretch) h
  | _ => simp_all

end FileSystem
end ClassPack
