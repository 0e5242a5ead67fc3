import ClassPack.Proofs.Json.Values
import ClassPack.Report.Summary

/-!
# ReadingBack — what programs read from a report

* `Json.datum`, the value that a value of a report is, and `Json.spells_chars`: its characters spell
  that value, by recursion over the value, on a line of any level;
* `Json.isText_render` and `Json.render_injective`, for whole reports;
* `Summary.isText_json`, for the summary of a run, whatever characters its path has.
-/

namespace ClassPack
namespace Json

open Datum

variable {t : List Char}

/-! ## Texts -/

theorem unit?_hexDigit : ∀ n < 0x20, unit? '0' '0' (hexDigit (n / 16)) (hexDigit n) = some n := by
  decide

theorem text?_unit_of_lt {n : Nat} (small : n < 0x20) (ps : List Piece) :
    Piece.text? (.unit n :: ps) = (Piece.text? ps).map (Char.ofNat n :: ·) := by
  have noLead : isLead n = false := by grind [isLead]
  have noTrail : isTrail n = false := by grind [isTrail]
  rw [Piece.text?.eq_def]
  simp [noLead, noTrail]

/-- What stands for a character: a backslash and its letter, its code unit, or itself. -/
theorem escape_cases (c : Char) :
    (∃ e, letters.lookup e = some c ∧ escape c = ['\\', e]) ∨
      (c.toNat < 0x20 ∧ escape c = ['\\', 'u', '0', '0', hexDigit (c.toNat / 16),
        hexDigit c.toNat]) ∨ (0x20 ≤ c.toNat ∧ c ≠ '"' ∧ c ≠ '\\' ∧ escape c = [c]) := by
  unfold escape
  split
  · rename_i same
    exact .inl ⟨'"', by rw [same]; rfl, rfl⟩
  · rename_i noQuote
    split
    · rename_i same
      exact .inl ⟨'\\', by rw [same]; rfl, rfl⟩
    · rename_i noSlash
      split
      · rename_i same
        exact .inl ⟨'n', by rw [same]; rfl, rfl⟩
      split
      · rename_i same
        exact .inl ⟨'r', by rw [same]; rfl, rfl⟩
      split
      · rename_i same
        exact .inl ⟨'t', by rw [same]; rfl, rfl⟩
      split
      · rename_i same
        exact .inl ⟨'b', by rw [same]; rfl, rfl⟩
      split
      · rename_i same
        exact .inl ⟨'f', by rw [same]; rfl, rfl⟩
      split
      · rename_i small
        exact .inr (.inl ⟨small, rfl⟩)
      · rename_i large
        exact .inr (.inr ⟨Nat.le_of_not_lt large, noQuote, noSlash, rfl⟩)

/-- What stands for a character is one piece of a quoted text, and the piece stands for that
character. -/
theorem body_escape (c : Char) {ps : List Piece} (body : Body t ps) :
    ∃ p, Body (escape c ++ t) (p :: ps) ∧
      Piece.text? (p :: ps) = (Piece.text? ps).map (c :: ·) := by
  obtain ⟨e, letter, escaped⟩ | ⟨small, escaped⟩ | ⟨large, noQuote, noSlash, escaped⟩ :=
    escape_cases c
  · rw [escaped]
    exact ⟨.char c, .letter letter body, rfl⟩
  · rw [escaped]
    refine ⟨.unit c.toNat, .unit (unit?_hexDigit c.toNat small) body, ?_⟩
    rw [text?_unit_of_lt small, Char.ofNat_toNat]
  · rw [escaped]
    exact ⟨.char c, .plain large noQuote noSlash body, rfl⟩

theorem body_flatMap_escape (cs : List Char) :
    ∃ ps, Body (cs.flatMap escape) ps ∧ Piece.text? ps = some cs := by
  induction cs with
  | nil => exact ⟨[], .nil, rfl⟩
  | cons c cs ih =>
      obtain ⟨ps, body, text⟩ := ih
      obtain ⟨p, here, one⟩ := body_escape c body
      exact ⟨p :: ps, here, by rw [one, text]; rfl⟩

theorem quoted_quoted (s : String) : Quoted (quoted s) s := by
  obtain ⟨ps, body, text⟩ := body_flatMap_escape s.toList
  have whole := Quoted.mk body text
  rwa [String.ofList_toList] at whole

/-! ## Numbers -/

theorem digitChar_ne_zero : ∀ n < 10, 0 < n → n.digitChar ≠ '0' := by
  decide

/-- No number but zero starts with a zero. -/
theorem head?_toDigits_ne_zero {n : Nat} (positive : 0 < n) :
    (Nat.toDigits 10 n).head? ≠ some '0' := by
  induction n using Nat.strongRecOn with
  | _ n ih =>
      by_cases small : n < 10
      · rw [Nat.toDigits_of_lt_base small]
        exact fun zero => digitChar_ne_zero n small positive (Option.some.inj zero)
      · have large : 10 ≤ n := Nat.le_of_not_lt small
        have front := ih (n / 10) (by omega) (by omega)
        rw [Nat.toDigits_of_base_le (by decide) large]
        obtain ⟨d, ds, digits⟩ :=
          List.exists_cons_of_ne_nil (Nat.toDigits_ne_nil (n := n / 10) (b := 10))
        rw [digits] at front ⊢
        exact front

theorem isWhole_toDigits (n : Nat) : IsWhole (Nat.toDigits 10 n) := by
  refine ⟨⟨Nat.toDigits_ne_nil, fun d there => Nat.isDigit_of_mem_toDigits (by decide)
    (by decide) there⟩, ?_⟩
  rcases Nat.eq_zero_or_pos n with rfl | positive
  · exact .inl rfl
  · exact .inr (head?_toDigits_ne_zero positive)

theorem numeral_toDigits (n : Nat) : Numeral (Nat.toDigits 10 n) n := by
  have number := Unsigned.mk (isWhole_toDigits n) .none .none
  have same : decimal (Nat.toDigits 10 n) [] 0 = n := by
    simp [decimal, ofDigits, Nat.ofDigitChars_ten_toDigits]
  rw [same, List.append_nil, List.append_nil] at number
  exact .unsigned number

/-! ## Members -/

mutual

/-- The value that a value of a report is. -/
def datum : Json → Datum
  | .text s => .text s
  | .number n => .number n
  | .object ms => .object (memberData ms)

/-- The members of a report, with the values that they are. -/
def memberData : List (String × Json) → List (String × Datum)
  | [] => []
  | (key, v) :: ms => (key, v.datum) :: memberData ms

end

/-- A member on a line of its own, as a part of an object. -/
def part (level : Nat) (after : List Char) (m : String × Json) : Datum.Part String where
  lead := newLine level ++ (quoted m.1 ++ [':', ' '])
  key := m.1
  text := chars level m.2
  value := m.2.datum
  after := after

/-- The members of an object, as its parts. The new line before the bracket belongs to the last
one. -/
def parts (level : Nat) (close : List Char) : List (String × Json) → List (Datum.Part String)
  | [] => []
  | [m] => [part level close m]
  | m :: n :: ms => part level [] m :: parts level close (n :: ms)

theorem whole_part (level : Nat) (after : List Char) (m : String × Json) :
    (part level after m).whole = memberChars level m ++ after := by
  obtain ⟨key, v⟩ := m
  simp [part, Datum.Part.whole, memberChars]

theorem listed_parts (level : Nat) (close : List Char) (m : String × Json)
    (ms : List (String × Json)) : listed (parts level close (m :: ms)) =
      memberChars level m ++ (restChars level ms ++ close) := by
  induction ms generalizing m with
  | nil => simp [parts, listed_singleton, whole_part, restChars]
  | cons n ms ih =>
      obtain ⟨q, qs, more⟩ : ∃ q qs, parts level close (n :: ms) = q :: qs := by
        cases ms with
        | nil => exact ⟨_, _, rfl⟩
        | cons o ms => exact ⟨_, _, rfl⟩
      calc
        listed (parts level close (m :: n :: ms)) =
            (part level [] m).whole ++ ',' :: listed (parts level close (n :: ms)) := by
          rw [parts, more, listed_cons_cons]
        _ = memberChars level m ++ [] ++
            ',' :: (memberChars level n ++ (restChars level ms ++ close)) := by
          rw [whole_part, ih n]
        _ = memberChars level m ++ (restChars level (n :: ms) ++ close) := by
          simp [restChars]

theorem map_parts (level : Nat) (close : List Char) (ms : List (String × Json)) :
    (parts level close ms).map (fun p => (p.key, p.value)) = memberData ms := by
  fun_induction parts level close ms with
  | case1 => rfl
  | case2 m => rfl
  | case3 m n ms ih =>
      rw [List.map_cons, ih]
      rfl

theorem mem_parts {level : Nat} {close : List Char} {ms : List (String × Json)}
    {p : Datum.Part String} (there : p ∈ parts level close ms) : ∃ m ∈ ms, p = part level [] m ∨
    p = part level close m := by
  fun_induction parts level close ms with
  | case1 => cases there
  | case2 m => exact ⟨m, List.mem_cons_self, .inr (List.mem_singleton.1 there)⟩
  | case3 m n ms ih =>
      obtain here | there := List.mem_cons.1 there
      · exact ⟨m, List.mem_cons_self, .inl here⟩
      · obtain ⟨o, among, which⟩ := ih there
        exact ⟨o, List.mem_cons_of_mem m among, which⟩

/-! ## Reports -/

theorem isGap_nil : IsGap [] := by
  rintro c ⟨⟩

theorem isGap_newLine (level : Nat) : IsGap (newLine level) := by
  intro c there
  obtain rfl | there := List.mem_cons.1 there
  · rfl
  · obtain rfl := List.eq_of_mem_replicate there
    rfl

theorem label_part (level : Nat) (after : List Char) (m : String × Json) :
    Label (part level after m).lead (part level after m).key := by
  have blank : IsGap [' '] := by
    intro c there
    obtain rfl := List.mem_singleton.1 there
    rfl
  have label := Label.mk (isGap_newLine level) (quoted_quoted m.1) isGap_nil blank
  exact label

/-- An object is spelled by its characters if its members are, on their lines. -/
theorem spells_object {level : Nat} {m : String × Json} {ms : List (String × Json)}
    (values : ∀ o ∈ m :: ms, Spells (chars (level + 1) o.2) o.2.datum) :
    Spells (chars level (.object (m :: ms))) (datum (.object (m :: ms))) := by
  have some_ : parts (level + 1) (newLine level) (m :: ms) ≠ [] := by
    cases ms with
    | nil => simp [parts]
    | cons n ms => simp [parts]
  have object : Spells ('{' :: (listed (parts (level + 1) (newLine level) (m :: ms)) ++ ['}']))
      (.object ((parts (level + 1) (newLine level) (m :: ms)).map fun p => (p.key, p.value))) := by
    refine .members some_ ?_ ?_ ?_
    · intro p there
      obtain ⟨o, -, rfl | rfl⟩ := mem_parts there
      all_goals exact label_part _ _ o
    · intro p there
      obtain ⟨o, -, rfl | rfl⟩ := mem_parts there
      · exact isGap_nil
      · exact isGap_newLine level
    · intro p there
      obtain ⟨o, among, rfl | rfl⟩ := mem_parts there
      all_goals exact values o among
  rw [listed_parts, map_parts] at object
  simpa [chars, datum] using object

mutual

/-- The characters of a value spell what it is. -/
theorem spells_chars (level : Nat) : (v : Json) → Spells (chars level v) v.datum
  | .text s => .text (quoted_quoted s)
  | .number n => .number (numeral_toDigits n)
  | .object [] => .noMembers isGap_nil
  | .object (m :: ms) => spells_object (spells_members (level + 1) (m :: ms))

theorem spells_members (level : Nat) :
    (ms : List (String × Json)) → ∀ m ∈ ms, Spells (chars level m.2) m.2.datum
  | [], _, there => nomatch there
  | (_, v) :: ms, m, there => by
      obtain rfl | there := List.mem_cons.1 there
      · exact spells_chars level v
      · exact spells_members level ms m there

end

/-- The text of a report has one value, the report. -/
theorem isText_render_iff (v : Json) (d : Datum) : IsText v.render d ↔ d = v.datum := by
  have here : IsText v.render v.datum := by
    refine .mk isGap_nil (spells_chars 0 v) isGap_nil ?_
    simp [render]
  constructor
  · intro other
    exact other.value_unique here
  · rintro rfl
    exact here

theorem ofText?_render (v : Json) : ofText? v.render = some v.datum :=
  ofText?_eq_some_iff.2 ((isText_render_iff v _).2 rfl)

mutual

theorem datum_injective : (v w : Json) → v.datum = w.datum → v = w
  | .text s, .text t, same => by
      cases same
      rfl
  | .number m, .number n, same => by
      have numbers := Datum.number.inj same
      rw [Rat.natCast_inj.1 numbers]
  | .object ms, .object ns, same => by
      rw [memberData_injective ms ns (Datum.object.inj same)]

theorem memberData_injective :
    (ms ns : List (String × Json)) → memberData ms = memberData ns → ms = ns
  | [], [], _ => rfl
  | (key, v) :: ms, (key', w) :: ns, same => by
      obtain ⟨head, rest⟩ := List.cons.inj same
      obtain ⟨keys, values⟩ := Prod.mk.inj head
      rw [keys, datum_injective v w values, memberData_injective ms ns rest]

end

/-- Different reports have different texts. -/
theorem render_injective {v w : Json} (same : v.render = w.render) : v = w := by
  have read : some v.datum = some w.datum := calc
    some v.datum = ofText? v.render := (ofText?_render v).symm
    _ = ofText? w.render := congrArg ofText? same
    _ = some w.datum := ofText?_render w
  exact datum_injective v w (Option.some.inj read)

end Json

namespace Summary

open Datum

theorem json_injective {s s' : Summary} (same : s.json = s'.json) : s = s' := by
  obtain ⟨path, classes, ⟨staged, working⟩, prebuilt, elapsed⟩ := s
  obtain ⟨path', classes', ⟨staged', working'⟩, prebuilt', elapsed'⟩ := s'
  simp [json] at same
  simp [same]

/-- The reader of the format finds five keys in the text of a summary, with the path and the numbers
of the summary behind them. By the grammar the text has this value and no other one, and no other
summary has the text. -/
theorem json_reads_back (s : Summary) :
    ofText? s.json.render = some (.object
      [("archive_path", .text s.archivePath),
       ("class_files", .number s.classFiles),
       ("aux_files", .object
         [("staged", .number s.auxFiles.staged), ("working_dir", .number s.auxFiles.workingDir)]),
       ("prebuilt_archives", .number s.prebuiltArchives),
       ("elapsed_ms", .number s.elapsed)]) ∧
      (∀ v : Datum, IsText s.json.render v ↔ ofText? s.json.render = some v) ∧
        ∀ s' : Summary, s'.json.render = s.json.render → s' = s := by
  refine ⟨?_, ?_, ?_⟩
  · exact Json.ofText?_render s.json
  · intro v
    exact ofText?_eq_some_iff.symm
  · intro s' same
    exact json_injective (Json.render_injective same)

end Summary
end ClassPack
