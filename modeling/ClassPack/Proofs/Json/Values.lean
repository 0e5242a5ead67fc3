import ClassPack.Proofs.Json.Scalars

/-!
# Values — the reader of whole JSON texts

* `readListed`, for the items of an array and for the members of an object, which differ in what
  leads to a value and in the bracket that closes them;
* `readValue`, with fuel for the brackets that are open at once: it reads every text of a value that
  is no longer than the fuel (`readValue_append`), and what it reads is such a text
  (`readValue_sound`);
* `ofText?`, the value of a text, and `ofText?_eq_some_iff`: it accepts the texts of the grammar and
  no other ones, so a text has one value at most.
-/

namespace ClassPack
namespace Datum

variable {κ : Type} {cs rest t g : List Char} {ps : List (Part κ)}

/-! ## White space -/

/-- What follows the white space at the front. -/
def skipGap (cs : List Char) : List Char := cs.dropWhile isGapChar

theorem skipGap_append (gap : IsGap g) (stops : Stops isGapChar rest) :
    skipGap (g ++ rest) = rest :=
  dropWhile_append_of_stops gap stops

theorem exists_gap_append_skipGap (cs : List Char) : ∃ g, IsGap g ∧ cs = g ++ skipGap cs :=
  ⟨cs.takeWhile isGapChar, fun _ there => List.mem_takeWhile_imp there,
    List.takeWhile_append_dropWhile.symm⟩

/-- A number does not go on with white space. -/
theorem stops_gap_append (gap : IsGap g) (stops : Stops isNumeralChar rest) :
    Stops isNumeralChar (g ++ rest) := by
  cases g with
  | nil => exact stops
  | cons c g =>
      have blank := gap c List.mem_cons_self
      simp only [isGapChar, Bool.or_eq_true, decide_eq_true_eq] at blank
      rcases blank with ((rfl | rfl) | rfl) | rfl
      all_goals exact stops_cons_iff.2 rfl

/-- Reads the white space that leads to an item. -/
def readBlank : Reader Unit := fun cs => some ((), skipGap cs)

theorem readBlank_obeys : Reader.Obeys readBlank (fun t _ => IsGap t) (Stops isGapChar) where
  takes := by
    intro t _ rest gap stops
    rw [readBlank, skipGap_append gap stops]
  sound := by
    intro cs _ rest h
    obtain ⟨g, gap, here⟩ := exists_gap_append_skipGap cs
    cases h
    exact ⟨g, here, gap⟩

/-- Reads the key of a member, up to the value. -/
def readLabel : Reader String := fun cs => do
  let (key, cs) ← readQuoted (skipGap cs)
  match skipGap cs with
  | ':' :: rest => some (key, skipGap rest)
  | _ => none

theorem Quoted.stops_append {s : String} (quoted : Quoted t s) : Stops isGapChar (t ++ rest) := by
  obtain ⟨-, -⟩ := quoted
  exact stops_cons_iff.2 rfl

theorem readLabel_obeys : Reader.Obeys readLabel Label (Stops isGapChar) where
  takes := by
    intro t key rest label stops
    obtain @⟨before, quoted, mid, after, key, isBefore, isQuoted, isMid, isAfter⟩ := label
    have one : skipGap (before ++ (quoted ++ (mid ++ ':' :: (after ++ rest)))) =
        quoted ++ (mid ++ ':' :: (after ++ rest)) :=
      skipGap_append isBefore isQuoted.stops_append
    have two : skipGap (mid ++ ':' :: (after ++ rest)) = ':' :: (after ++ rest) :=
      skipGap_append isMid (stops_cons_iff.2 rfl)
    have three := skipGap_append isAfter stops
    simp [readLabel, one, readQuoted_obeys.takes isQuoted trivial, two, three]
  sound := by
    intro cs key rest h
    simp only [readLabel, Option.bind_eq_bind, Option.bind_eq_some_iff, Prod.exists] at h
    obtain ⟨key, left, read, h⟩ := h
    split at h
    · rename_i more colon
      cases h
      obtain ⟨before, isBefore, here⟩ := exists_gap_append_skipGap cs
      obtain ⟨quoted, atQuote, isQuoted⟩ := readQuoted_obeys.sound read
      obtain ⟨mid, isMid, atMid⟩ := exists_gap_append_skipGap left
      obtain ⟨after, isAfter, atAfter⟩ := exists_gap_append_skipGap more
      refine ⟨before ++ (quoted ++ (mid ++ ':' :: after)), ?_, .mk isBefore isQuoted isMid isAfter⟩
      rw [here, atQuote, atMid, colon]
      simp [← atAfter]
    · cases h

/-- A label does not start with the bracket that closes an object. -/
theorem Label.head?_skipGap {key : String} (label : Label t key) (rest : List Char) :
    (skipGap (t ++ rest)).head? ≠ some '}' := by
  obtain ⟨isBefore, isQuoted, -, -⟩ := label
  rename_i before quoted mid after
  have skipped : skipGap (before ++ (quoted ++ (mid ++ ':' :: after)) ++ rest) =
      quoted ++ ((mid ++ ':' :: after) ++ rest) := by
    rw [List.append_assoc, List.append_assoc]
    exact skipGap_append isBefore isQuoted.stops_append
  rw [skipped]
  obtain ⟨-, -⟩ := isQuoted
  simp

/-! ## How values start -/

theorem Unsigned.starts {q : Rat} (number : Unsigned t q) :
    ∃ c more, t = c :: more ∧ c.isDigit = true := by
  obtain @⟨whole, point, fraction, power, exponent, ⟨digits, -⟩, -, -⟩ := number
  obtain ⟨d, ds, rfl⟩ := List.exists_cons_of_ne_nil digits.1
  exact ⟨d, _, rfl, digits.2 d List.mem_cons_self⟩

/-- A value starts with a character that is no white space and closes no bracket. -/
theorem Spells.starts {v : Datum} (spelled : Spells t v) :
    ∃ c more, t = c :: more ∧ isGapChar c = false ∧ c ≠ ']' := by
  cases spelled with
  | number number =>
      cases number with
      | unsigned number =>
          obtain ⟨c, more, rfl, digit⟩ := number.starts
          refine ⟨c, more, rfl, ?_, ?_⟩
          · simp only [isGapChar, Bool.or_eq_false_iff, decide_eq_false_iff_not]
            refine ⟨⟨⟨?_, ?_⟩, ?_⟩, ?_⟩
            all_goals
              rintro rfl
              cases digit
          · rintro rfl
            cases digit
      | minus number => exact ⟨_, _, rfl, rfl, by decide⟩
  | text quoted =>
      obtain ⟨-, -⟩ := quoted
      exact ⟨_, _, rfl, rfl, by decide⟩
  | _ => exact ⟨_, _, rfl, rfl, by decide⟩

theorem Spells.stops_append {v : Datum} (spelled : Spells t v) : Stops isGapChar (t ++ rest) := by
  obtain ⟨c, more, rfl, noGap, -⟩ := spelled.starts
  exact stops_cons_iff.2 noGap

theorem Numeral.append_ne_cons {q : Rat} {c : Char} (number : Numeral t q)
    (other : c.isDigit = false) (noSign : c ≠ '-') (more : List Char) : t ++ rest ≠ c :: more := by
  intro same
  cases number with
  | unsigned number =>
      obtain ⟨d, ds, rfl, digit⟩ := number.starts
      cases same
      rw [digit] at other
      cases other
  | minus number =>
      cases same
      exact noSign rfl

/-! ## Items and members -/

theorem listed_singleton (p : Part κ) : listed [p] = p.whole := by
  simp [listed]

theorem listed_cons_cons (p q : Part κ) (ps : List (Part κ)) :
    listed (p :: q :: ps) = p.whole ++ ',' :: listed (q :: ps) := by
  simp [listed, List.intercalate_cons_cons]

/-- There are no more parts than commas and one. -/
theorem length_le_length_listed (ps : List (Part κ)) : ps.length ≤ (listed ps).length + 1 := by
  induction ps with
  | nil => simp
  | cons p ps ih =>
      cases ps with
      | nil => simp
      | cons q ps => grind [listed_cons_cons]

theorem Part.length_text_le {p : Part κ} (there : p ∈ ps) : p.text.length ≤ (listed ps).length := by
  induction ps with
  | nil => cases there
  | cons q ps ih =>
      cases ps with
      | nil =>
          obtain rfl := List.mem_singleton.1 there
          grind [listed_singleton, Part.whole]
      | cons r ps => grind [listed_cons_cons, Part.whole]

/-- A part as the grammar has it, with what may lead to its value. -/
structure Part.Spelled (Lead : List Char → κ → Prop) (p : Part κ) : Prop where
  lead : Lead p.lead p.key
  after : IsGap p.after
  value : Spells p.text p.value

/-- Reads the items of an array or the members of an object, of which there is at least one, and the
bracket that closes it. The fuel is for their number. -/
def readParts (lead : Reader κ) (value : Reader Datum) (close : Char) :
    Nat → Reader (List (κ × Datum))
  | 0, _ => none
  | n + 1, cs => do
      let (key, cs) ← lead cs
      let (v, cs) ← value cs
      match skipGap cs with
      | [] => none
      | c :: rest =>
          if c = ',' then (readParts lead value close n rest).map fun (read, rest) =>
            ((key, v) :: read, rest)
          else if c = close then some ([(key, v)], rest)
          else none

variable {lead : Reader κ} {Lead : List Char → κ → Prop} {value : Reader Datum} {close : Char}

/-- The reader takes the values of parts, if no number can go on behind them. -/
def TakesValues (value : Reader Datum) (ps : List (Part κ)) : Prop :=
  ∀ p ∈ ps, ∀ rest, Stops isNumeralChar rest → value (p.text ++ rest) = some (p.value, rest)

/-- A character that may stand behind a part: neither white space nor one by which a number goes
on. -/
def EndsPart (c : Char) : Prop := isGapChar c = false ∧ isNumeralChar c = false

/-- A part is read in three steps: to its value, to the end of the value, and to what stands
behind the part. -/
theorem Part.Spelled.reads {p : Part κ} (here : p.Spelled Lead)
    (leads : lead.Obeys Lead (Stops isGapChar)) (values : TakesValues value ps) (there : p ∈ ps)
    (c : Char) (ends : EndsPart c) (rest : List Char) :
    lead (p.whole ++ c :: rest) = some (p.key, p.text ++ (p.after ++ c :: rest)) ∧
      value (p.text ++ (p.after ++ c :: rest)) = some (p.value, p.after ++ c :: rest) ∧
        skipGap (p.after ++ c :: rest) = c :: rest := by
  refine ⟨?_, ?_, ?_⟩
  · have starts : Stops isGapChar (p.text ++ (p.after ++ c :: rest)) := here.value.stops_append
    simpa only [Part.whole, List.append_assoc] using leads.takes here.lead starts
  · have stops : Stops isNumeralChar (c :: rest) := stops_cons_iff.2 ends.2
    exact values p there _ (stops_gap_append here.after stops)
  · exact skipGap_append here.after (stops_cons_iff.2 ends.1)

theorem readParts_append (leads : lead.Obeys Lead (Stops isGapChar)) (noComma : close ≠ ',')
    (ends : EndsPart close) (some_ : ps ≠ []) (spelled : ∀ p ∈ ps, p.Spelled Lead)
    (values : TakesValues value ps) {n : Nat} (room : ps.length ≤ n) :
    readParts lead value close n (listed ps ++ close :: rest) =
      some (ps.map fun p => (p.key, p.value), rest) := by
  induction ps generalizing n with
  | nil => exact absurd rfl some_
  | cons p ps ih =>
      have reads := (spelled p List.mem_cons_self).reads leads values List.mem_cons_self
      cases n with
      | zero => cases room
      | succ n =>
          cases ps with
          | nil =>
              obtain ⟨one, two, three⟩ := reads close ends rest
              simp [readParts, listed_singleton, one, two, three, noComma]
          | cons q ps =>
              have comma : EndsPart ',' := ⟨rfl, rfl⟩
              obtain ⟨one, two, three⟩ := reads ',' comma (listed (q :: ps) ++ close :: rest)
              have others :=
                ih (List.cons_ne_nil q ps) (fun p there => spelled p (List.mem_cons_of_mem _ there))
                (fun p there => values p (List.mem_cons_of_mem _ there))
                (Nat.le_of_succ_le_succ room)
              simp [readParts, listed_cons_cons, one, two, three, others]

theorem parts_of_readParts (leads : lead.Obeys Lead (Stops isGapChar))
    (values : value.Sound Spells) {n : Nat} {read : List (κ × Datum)}
    (h : readParts lead value close n cs = some (read, rest)) :
    ∃ ps : List (Part κ), ps ≠ [] ∧ cs = listed ps ++ close :: rest ∧
      read = ps.map (fun p => (p.key, p.value)) ∧ ∀ p ∈ ps, p.Spelled Lead := by
  induction n generalizing cs read with
  | zero => cases h
  | succ n ih =>
      simp only [readParts, Option.bind_eq_bind, Option.bind_eq_some_iff, Prod.exists] at h
      obtain ⟨key, left, atLead, v, left', atValue, h⟩ := h
      obtain ⟨before, rfl, isLead⟩ := leads.sound atLead
      obtain ⟨t, rfl, spelled⟩ := values atValue
      obtain ⟨after, isAfter, atAfter⟩ := exists_gap_append_skipGap left'
      have here : Part.Spelled Lead ⟨before, key, t, v, after⟩ := ⟨isLead, isAfter, spelled⟩
      split at h
      · cases h
      · rename_i c more skipped
        rw [skipped] at atAfter
        split at h
        · rename_i comma
          obtain ⟨⟨others, left''⟩, readOthers, same⟩ := Option.map_eq_some_iff.1 h
          cases same
          obtain ⟨ps, some_, rfl, rfl, all⟩ := ih readOthers
          obtain ⟨q, ps, rfl⟩ := List.exists_cons_of_ne_nil some_
          refine ⟨⟨before, key, t, v, after⟩ :: q :: ps, List.cons_ne_nil _ _, ?_, rfl,
            List.forall_mem_cons.2 ⟨here, all⟩⟩
          simp [listed_cons_cons, Part.whole, atAfter, comma]
        · split at h
          · rename_i closes
            cases h
            refine ⟨[⟨before, key, t, v, after⟩], List.cons_ne_nil _ _, ?_, rfl,
              List.forall_mem_singleton.2 here⟩
            simp [listed_singleton, Part.whole, atAfter, closes]
          · cases h

/-- Reads the items of an array or the members of an object, of which there may be none, and
the bracket. -/
def readListed (lead : Reader κ) (value : Reader Datum) (close : Char) (n : Nat) :
    Reader (List (κ × Datum)) :=
  fun cs =>
    if (skipGap cs).head? = some close then some ([], (skipGap cs).tail)
    else readParts lead value close n cs

theorem readListed_gap (gap : IsGap g) (ends : EndsPart close) (n : Nat) :
    readListed lead value close n (g ++ close :: rest) = some ([], rest) := by
  have skipped : skipGap (g ++ close :: rest) = close :: rest :=
    skipGap_append gap (stops_cons_iff.2 ends.1)
  simp [readListed, skipped]

theorem readListed_append (leads : lead.Obeys Lead (Stops isGapChar)) (noComma : close ≠ ',')
    (ends : EndsPart close) (some_ : ps ≠ []) (spelled : ∀ p ∈ ps, p.Spelled Lead)
    (values : TakesValues value ps)
    (opens : ∀ p ∈ ps, ∀ rest, (skipGap (p.whole ++ rest)).head? ≠ some close) {n : Nat}
    (room : (listed ps).length < n) :
    readListed lead value close n (listed ps ++ close :: rest) =
      some (ps.map fun p => (p.key, p.value), rest) := by
  have noClose : (skipGap (listed ps ++ close :: rest)).head? ≠ some close := by
    cases ps with
    | nil => exact absurd rfl some_
    | cons p ps =>
        cases ps with
        | nil => simpa only [listed_singleton] using opens p List.mem_cons_self _
        | cons q ps =>
            simpa only [listed_cons_cons, List.append_assoc] using opens p List.mem_cons_self _
  rw [readListed, if_neg noClose]
  exact readParts_append leads noComma ends some_ spelled values
    (Nat.le_trans (length_le_length_listed ps) room)

theorem parts_of_readListed (leads : lead.Obeys Lead (Stops isGapChar))
    (values : value.Sound Spells) {n : Nat} {read : List (κ × Datum)}
    (h : readListed lead value close n cs = some (read, rest)) :
    (∃ g, IsGap g ∧ cs = g ++ close :: rest ∧ read = []) ∨
      ∃ ps : List (Part κ), ps ≠ [] ∧ cs = listed ps ++ close :: rest ∧
        read = ps.map (fun p => (p.key, p.value)) ∧ ∀ p ∈ ps, p.Spelled Lead := by
  unfold readListed at h
  split at h
  · rename_i closes
    cases h
    obtain ⟨g, gap, here⟩ := exists_gap_append_skipGap cs
    obtain ⟨more, atClose⟩ := List.head?_eq_some_iff.1 closes
    exact .inl ⟨g, gap, by rw [atClose] at here ⊢; exact here, rfl⟩
  · exact .inr (parts_of_readParts leads values h)

/-- No item starts with the bracket that closes an array. -/
theorem Part.Spelled.head?_item {p : Part Unit} (here : p.Spelled fun t _ => IsGap t)
    (rest : List Char) : (skipGap (p.whole ++ rest)).head? ≠ some ']' := by
  have skipped : skipGap (p.whole ++ rest) = p.text ++ (p.after ++ rest) := by
    rw [Part.whole, List.append_assoc, List.append_assoc]
    exact skipGap_append here.lead here.value.stops_append
  obtain ⟨c, more, atStart, -, noClose⟩ := here.value.starts
  rw [skipped, atStart]
  exact fun closes => noClose (Option.some.inj closes)

/-- No member starts with the bracket that closes an object. -/
theorem Part.Spelled.head?_member {p : Part String} (here : p.Spelled Label) (rest : List Char) :
    (skipGap (p.whole ++ rest)).head? ≠ some '}' := by
  rw [Part.whole, List.append_assoc]
  exact here.lead.head?_skipGap _

/-! ## Values -/

/-- Reads a value, with a reader for the values inside of it. -/
def readOne (value : Reader Datum) (n : Nat) : Reader Datum
  | 'n' :: 'u' :: 'l' :: 'l' :: rest => some (.null, rest)
  | 't' :: 'r' :: 'u' :: 'e' :: rest => some (.bool true, rest)
  | 'f' :: 'a' :: 'l' :: 's' :: 'e' :: rest => some (.bool false, rest)
  | '"' :: rest => (readQuoted ('"' :: rest)).map fun (s, rest) => (.text s, rest)
  | '[' :: rest =>
      (readListed readBlank value ']' n rest).map fun (items, rest) =>
        (.array (items.map Prod.snd), rest)
  | '{' :: rest =>
      (readListed readLabel value '}' n rest).map fun (members, rest) => (.object members, rest)
  | cs => (readNumber cs).map fun (q, rest) => (.number q, rest)

/-- Reads a value. The fuel is for the brackets that are open at once, and for the parts between
two of them. -/
def readValue : Nat → Reader Datum
  | 0 => fun _ => none
  | n + 1 => readOne (readValue n) n

/-- The fuel for a listing is enough for the values in it. -/
theorem takesValues_of_room {n : Nat} (room : (listed ps).length < n)
    (takes : ∀ p ∈ ps, ∀ {rest n}, p.text.length ≤ n + 1 → Stops isNumeralChar rest →
      readValue (n + 1) (p.text ++ rest) = some (p.value, rest)) :
    TakesValues (readValue n) ps := by
  intro p there rest stops
  have short := Part.length_text_le there
  cases n with
  | zero => cases room
  | succ n => exact takes p there (by omega) stops

/-- The reader takes the whole of a value that is no longer than the fuel. -/
theorem readValue_append {v : Datum} (spelled : Spells t v) {n : Nat} (room : t.length ≤ n + 1)
    (stops : Stops isNumeralChar rest) : readValue (n + 1) (t ++ rest) = some (v, rest) := by
  induction spelled generalizing n rest with
  | null => rfl
  | yes => rfl
  | no => rfl
  | number number =>
      rw [readValue, readOne, readNumber_obeys.takes number stops]
      · rfl
      -- A number is neither a word nor a text, and opens no bracket.
      all_goals
        intro more
        exact number.append_ne_cons rfl (by decide) _
  | @text t s quoted =>
      have read : readQuoted (t ++ rest) = some (s, rest) := readQuoted_obeys.takes quoted trivial
      obtain ⟨-, -⟩ := quoted
      rw [List.cons_append] at read ⊢
      rw [readValue, readOne, read]
      rfl
  | noItems gap =>
      rw [List.cons_append, List.append_assoc, List.singleton_append, readValue, readOne,
        readListed_gap gap ⟨rfl, rfl⟩]
      rfl
  | @items ps some_ leads afters spells ih =>
      have fits : (listed ps).length < n := by
        simp only [List.length_cons, List.length_append] at room
        omega
      have spelled : ∀ p ∈ ps, p.Spelled (fun t _ => IsGap t) := fun p there =>
        ⟨leads p there, afters p there, spells p there⟩
      have opens := fun p there => (spelled p there).head?_item
      rw [List.cons_append, List.append_assoc, List.singleton_append, readValue, readOne,
        readListed_append readBlank_obeys (by decide) ⟨rfl, rfl⟩ some_ spelled
          (takesValues_of_room fits ih) opens fits]
      simp
  | noMembers gap =>
      rw [List.cons_append, List.append_assoc, List.singleton_append, readValue, readOne,
        readListed_gap gap ⟨rfl, rfl⟩]
      rfl
  | @members ps some_ leads afters spells ih =>
      have fits : (listed ps).length < n := by
        simp only [List.length_cons, List.length_append] at room
        omega
      have spelled : ∀ p ∈ ps, p.Spelled Label := fun p there =>
        ⟨leads p there, afters p there, spells p there⟩
      have opens := fun p there => (spelled p there).head?_member
      rw [List.cons_append, List.append_assoc, List.singleton_append, readValue, readOne,
        readListed_append readLabel_obeys (by decide) ⟨rfl, rfl⟩ some_ spelled
          (takesValues_of_room fits ih) opens fits]
      simp

/-- What the reader takes is the text of a value, if so is what it takes inside of it. -/
theorem readOne_sound (values : value.Sound Spells) (n : Nat) : (readOne value n).Sound Spells := by
  intro cs v rest h
  unfold readOne at h
  split at h
  · cases h
    exact ⟨_, rfl, .null⟩
  · cases h
    exact ⟨_, rfl, .yes⟩
  · cases h
    exact ⟨_, rfl, .no⟩
  · obtain ⟨⟨s, left⟩, read, here⟩ := Option.map_eq_some_iff.1 h
    obtain ⟨t, atQuote, quoted⟩ := readQuoted_obeys.sound read
    cases here
    exact ⟨t, atQuote, .text quoted⟩
  · obtain ⟨⟨items, left⟩, read, here⟩ := Option.map_eq_some_iff.1 h
    cases here
    obtain ⟨g, gap, rfl, rfl⟩ | ⟨ps, some_, rfl, rfl, spelled⟩ :=
      parts_of_readListed readBlank_obeys values read
    · exact ⟨'[' :: (g ++ [']']), by simp, .noItems gap⟩
    · refine ⟨'[' :: (listed ps ++ [']']), by simp, ?_⟩
      have array := Spells.items some_ (fun p there => (spelled p there).lead)
        (fun p there => (spelled p there).after) (fun p there => (spelled p there).value)
      simpa [Function.comp_def] using array
  · obtain ⟨⟨members, left⟩, read, here⟩ := Option.map_eq_some_iff.1 h
    cases here
    obtain ⟨g, gap, rfl, rfl⟩ | ⟨ps, some_, rfl, rfl, spelled⟩ :=
      parts_of_readListed readLabel_obeys values read
    · exact ⟨'{' :: (g ++ ['}']), by simp, .noMembers gap⟩
    · have object := Spells.members some_ (fun p there => (spelled p there).lead)
        (fun p there => (spelled p there).after) (fun p there => (spelled p there).value)
      exact ⟨'{' :: (listed ps ++ ['}']), by simp, object⟩
  · obtain ⟨⟨q, left⟩, read, here⟩ := Option.map_eq_some_iff.1 h
    obtain ⟨t, atNumber, number⟩ := readNumber_obeys.sound read
    cases here
    exact ⟨t, atNumber, .number number⟩

theorem readValue_sound (n : Nat) : (readValue n).Sound Spells := by
  induction n with
  | zero => exact fun h => nomatch h
  | succ n ih => exact readOne_sound ih n

/-! ## Whole texts -/

/-- The value of a text, with white space around it. -/
def ofText? (s : String) : Option Datum :=
  match readValue (s.length + 1) (skipGap s.toList) with
  | some (v, rest) => if skipGap rest = [] then some v else none
  | none => none

/-- The reader accepts the texts of the grammar, with their values, and no other texts. -/
theorem ofText?_eq_some_iff {s : String} {v : Datum} : ofText? s = some v ↔ IsText s v := by
  constructor
  · intro h
    unfold ofText? at h
    split at h
    · rename_i u rest read
      split at h
      · rename_i ended
        cases h
        obtain ⟨t, atValue, spelled⟩ := readValue_sound _ read
        obtain ⟨before, isBefore, here⟩ := exists_gap_append_skipGap s.toList
        obtain ⟨after, isAfter, atEnd⟩ := exists_gap_append_skipGap rest
        rw [ended, List.append_nil] at atEnd
        exact ⟨isBefore, spelled, isAfter, by rw [here, atValue, atEnd]⟩
      · cases h
    · cases h
  · rintro ⟨isBefore, spelled, isAfter, whole⟩
    rename_i before t after
    have skipped : skipGap s.toList = t ++ after := by
      rw [whole]
      exact skipGap_append isBefore spelled.stops_append
    have room : t.length ≤ s.length + 1 := by
      have long := congrArg List.length whole
      simp only [List.length_append, String.length_toList] at long
      omega
    have ended : skipGap after = [] := by
      simpa using skipGap_append isAfter (stops_nil _)
    have stops : Stops isNumeralChar after := by
      simpa using stops_gap_append isAfter (stops_nil _)
    simp [ofText?, skipped, readValue_append spelled room stops, ended]

/-- Two code units that are a pair are one character. -/
example : ofText? "\"\\ud83d\\ude00\"" = some (.text "😀") := by cbv

/-- A half of a pair is no character. -/
example : ofText? "\"\\ud83d\"" = none := by cbv

/-- A number may have a point and a power of ten. -/
example : ofText? "-2.50e1" = some (.number (-25)) := by cbv

/-- A text has one value at most. -/
theorem IsText.value_unique {s : String} {v w : Datum} (one : IsText s v) (other : IsText s w) :
    v = w := by
  have same : some v = some w := calc
    some v = ofText? s := (ofText?_eq_some_iff.2 one).symm
    _ = some w := ofText?_eq_some_iff.2 other
  exact Option.some.inj same

end Datum
end ClassPack
