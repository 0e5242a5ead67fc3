import ClassPack.Proofs.Finding

/-!
# MatchOrder — in which order a search gives its matches

* `Path.componentBytes` — the components of a path, each as it is written; to compare these lists
  is to compare paths component by component, which is not the order of the texts: a slash comes
  after a dot there;
* `map_lt_map_of_compare` — from the order of a walk to this one;
* `findMatches_ascending` — what a search gives is strictly increasing, and so nothing in it comes
  twice.
-/

namespace ClassPack

open FileSystem

/-! ## Component by component -/

namespace Path

/-- A component as it is written. -/
def Component.bytes : Component → Bytes
  | .root => [slash]
  | .here => [dot]
  | .up => [dot, dot]
  | .name bytes => bytes

/-- The components of a path as they are written. -/
def componentBytes (p : Path) : List Bytes := (components p).map Component.bytes

/-- Names are the components of the text that they make up. -/
theorem components_relativePath (names : Place) :
    components names.relativePath = names.map fun n => .name n.bytes := by
  have counts : ∀ n : Name, Component.ofPiece? n.bytes = some (.name n.bytes) := fun n => by
    obtain ⟨some_, notDot, notDots, _, _⟩ := n.valid
    simp [Component.ofPiece?, some_, notDot, notDots]
  cases names with
  | nil => rfl
  | cons n more =>
      obtain ⟨some_, notDot, _, _, _⟩ := n.valid
      simp [components, pieces_relativePath, some_, notDot, counts, List.filterMap_map]

@[simp] theorem componentBytes_relativePath (names : Place) :
    componentBytes names.relativePath = names.map Name.bytes := by
  simp [componentBytes, components_relativePath, Component.bytes]

end Path

/-- Lists in order stay in order if their members do. -/
theorem map_lt_map_of_compare {α β : Type} [Ord α] [Std.LawfulEqOrd α] [LT β] {f : α → β}
    {l m : List α} (step : ∀ a b, compare a b = .lt → f a < f b) (before : compare l m = .lt) :
    l.map f < m.map f := by
  induction l generalizing m with
  | nil =>
      cases m with
      | nil => simp at before
      | cons b m => exact List.Lex.nil
  | cons a l ih =>
      cases m with
      | nil => simp at before
      | cons b m =>
          rw [List.compare_cons_cons] at before
          cases first : compare a b with
          | lt => exact List.Lex.rel (step a b first)
          | eq =>
              obtain rfl := Std.LawfulEqOrd.eq_of_compare first
              exact List.Lex.cons (ih (by simpa [first] using before))
          | gt => simp [first] at before

/-- Places in order have texts in order, component by component. -/
theorem Place.componentBytes_lt {names names' : Place} (before : compare names names' = .lt) :
    Path.componentBytes names.relativePath < Path.componentBytes names'.relativePath := by
  rw [Path.componentBytes_relativePath, Path.componentBytes_relativePath]
  refine map_lt_map_of_compare (fun n n' before => ?_) before
  have bytes : n.bytes.map id < n'.bytes.map id :=
    map_lt_map_of_compare (fun _ _ => Std.compare_eq_lt.1) (Name.compare_def n n' ▸ before)
  simpa using bytes

/-! ## Searches -/

variable {w w' : Workshop} {root : String} {pattern : ArtifactPattern} {paths : List String}

/-- What a search gives is strictly increasing, component by component. -/
theorem findMatches_ascending (h : findMatches root pattern w = .ok paths w') :
    (paths.Pairwise fun path path' =>
      Path.componentBytes (Utf8.encode path) < Path.componentBytes (Utf8.encode path')) ∧
      paths.Nodup := by
  obtain ⟨selector, _, whole, rfl⟩ := findMatches_ok h
  refine ⟨?_, findMatches_nodup h⟩
  have ascends : (visits w.files root).Pairwise Ascends := walk_ascends
  rw [eq_map_of_untilError whole, List.pairwise_map] at ascends
  refine .filter _ (List.pairwise_filterMap.2 ((ascends.filter _).imp ?_))
  intro found found' before text spelled text' spelled'
  rw [Utf8.encode_of_decode? spelled, Utf8.encode_of_decode? spelled']
  exact Place.componentBytes_lt (before rfl rfl)

/-- A game with a directory whose name begins the names of two files beside it, and with a link to
the directory. -/
def siblingGame : FileSystem :=
  ([("/pz", .directory), ("/pz/a.class", holding "file"), ("/pz/a-b.class", holding "file"),
    ("/pz/a", .directory), ("/pz/a/x.class", holding "inner"), ("/pz/b", linkTo "a")]
  : List (String × Entry)).foldl (fun fs (text, e) => fs.plant text e) (empty {})

/-- As texts, the first of these matches would come behind the two after it. -/
theorem findMatches_ascending_siblings :
    ∃ w, findMatches "/pz" .classFiles ⟨siblingGame, [], []⟩ =
        .ok ["a/x.class", "a-b.class", "a.class", "b/x.class"] w ∧
      (["a/x.class", "a-b.class", "a.class", "b/x.class"].Pairwise fun path path' =>
        Path.componentBytes (Utf8.encode path) < Path.componentBytes (Utf8.encode path')) ∧
      ["a/x.class", "a-b.class", "a.class", "b/x.class"].Nodup := by
  have found : resultOf? (findMatches "/pz" .classFiles ⟨siblingGame, [], []⟩) =
      some ["a/x.class", "a-b.class", "a.class", "b/x.class"] := by decide +kernel
  obtain ⟨w, found⟩ := resultOf?_eq_some found
  exact ⟨w, found, findMatches_ascending found⟩

end ClassPack
