import WireRecords.Proofs.Entries
import WireRecords.Proofs.FloatText
import WireRecords.Proofs.JsonRoundTrip
import WireRecords.Proofs.TextBytes

/-!
# Text and back

The text of a value is read back as the same value, with every integer that is not negative in
unsigned storage. This holds in every style and whatever stands around the text, as long as it does
not carry a number on. NaN and the infinities have no numeral, so they are left out, and nothing
that is read holds one.
-/

namespace WireRecords.Json

mutual

/-- The value with its non-negative integers in unsigned storage. -/
def normal : Json → Json
  | signed n => if n.toInt < 0 then signed n else unsigned (UInt64.ofNat n.toInt.natAbs)
  | array xs => array (normalItems xs)
  | object ms => object (normalMembers ms)
  | j => j

def normalItems : List Json → List Json
  | [] => []
  | x :: xs => x.normal :: normalItems xs

def normalMembers : List (String × Json) → List (String × Json)
  | [] => []
  | (k, v) :: ms => (k, v.normal) :: normalMembers ms

end

/-- A value with finite floats only, whose objects have their members in key order. -/
inductive Plain : Json → Prop where
  | null : Plain null
  | bool (b : Bool) : Plain (bool b)
  | unsigned (n : UInt64) : Plain (unsigned n)
  | signed (n : Int64) : Plain (signed n)
  | float {x : Binary64} (finite : x.isFinite = true) : Plain (float x)
  | string (s : String) : Plain (string s)
  | array {xs : List Json} (items : ∀ x ∈ xs, Plain x) : Plain (array xs)
  | object {ms : List (String × Json)} (sorted : Entries.Sorted ms)
      (members : ∀ m ∈ ms, Plain m.2) : Plain (object ms)

theorem normalMembers_eq_map (ms : List (String × Json)) :
    normalMembers ms = ms.map fun m => (m.1, m.2.normal) := by
  induction ms with
  | nil => rfl
  | cons m ms ih => rw [normalMembers, ih, List.map_cons]

theorem sorted_normalMembers {ms : List (String × Json)} (sorted : Entries.Sorted ms) :
    Entries.Sorted (normalMembers ms) := by
  rw [normalMembers_eq_map]
  exact List.pairwise_map.mpr sorted

theorem find?_normalMembers (ms : List (String × Json)) (key : String) :
    Entries.find? (normalMembers ms) key = (Entries.find? ms key).map normal := by
  induction ms with
  | nil => rfl
  | cons m ms ih =>
    rw [normalMembers, Entries.find?, Entries.find?, ih]
    split <;> rfl

theorem ofMembers_of_sorted {ms : List (String × Json)} (sorted : Entries.Sorted ms) :
    ofMembers ms = object ms := by
  rw [ofMembers_eq, Entries.insertAll_nil_of_sorted sorted]

theorem plain_ofMembers {ms : List (String × Json)} (h : ∀ m ∈ ms, m.2.Plain) :
    (ofMembers ms).Plain := by
  have empty : Entries.Sorted ([] : List (String × Json)) := List.Pairwise.nil
  have sorted := empty.insertAll ms
  rw [ofMembers_eq]
  apply Plain.object sorted
  intro m stays
  exact h m (Entries.mem_of_find?_insertAll (Entries.find?_of_mem sorted.nodup_keys stays))

def Starts (c : Char) : Prop := isSpace c = false ∧ c ≠ ']' ∧ c.toNat ≠ 0xFEFF

theorem starts_of_isDigit {c : Char} (digit : Literal.isDigit c = true) : Starts c := by
  have low : c.toNat ≤ 57 := by
    simp only [Literal.isDigit, Bool.and_eq_true, decide_eq_true_eq] at digit
    exact digit.2
  refine ⟨?_, ?_, by omega⟩
  · simp only [isSpace, Bool.or_eq_false_iff, decide_eq_false_iff_not]
    refine ⟨⟨⟨?_, ?_⟩, ?_⟩, ?_⟩ <;> rintro rfl <;> cases digit
  · rintro rfl
    cases digit

theorem natText_starts (n : Nat) : ∃ c cs, natText n = c :: cs ∧ Starts c := by
  obtain ⟨c, cs, text, digit⟩ := natText_eq_cons n
  exact ⟨c, cs, text, starts_of_isDigit digit⟩

theorem Plain.starts {j : Json} (h : j.Plain) (style : Style) (depth : Nat) :
    ∃ c cs, render style depth j = c :: cs ∧ Starts c := by
  have token (c : Char) (h : isSpace c = false ∧ c ≠ ']' ∧ c.toNat ≠ 0xFEFF) (cs : List Char) :
      ∃ c' cs', c :: cs = c' :: cs' ∧ Starts c' := ⟨c, cs, rfl, h⟩
  cases h with
  | null => exact token 'n' (by decide) _
  | bool b => cases b with
    | false => exact token 'f' (by decide) _
    | true => exact token 't' (by decide) _
  | unsigned n => exact natText_starts n.toNat
  | signed n =>
    rw [render, intText]
    split
    · exact token '-' (by decide) _
    · exact natText_starts n.toInt.natAbs
  | float finite =>
    obtain ⟨c, cs, text, digit | rfl⟩ := floatText_eq_cons finite
    · exact ⟨c, cs, text, starts_of_isDigit digit⟩
    · exact ⟨'-', cs, text, by decide, by decide, by decide⟩
  | string s => exact token '"' (by decide) _
  | @array xs _ => cases xs <;> exact token '[' (by decide) _
  | @object ms _ _ => cases ms <;> exact token '{' (by decide) _

theorem scanValue_gap (fuel : Nat) (style : Style) (depth : Nat) (cs : List Char) :
    scanValue fuel (gap style depth ++ cs) = scanValue fuel cs := by
  cases fuel with
  | zero => rw [scanValue, scanValue]
  | succ fuel => rw [scanValue, scanValue, skipSpace_gap]

theorem scanItems_gap (fuel : Nat) (style : Style) (depth : Nat) (cs : List Char) :
    scanItems fuel (gap style depth ++ cs) = scanItems fuel cs := by
  cases fuel with
  | zero => rw [scanItems, scanItems]
  | succ fuel => rw [scanItems, scanItems, scanValue_gap]

theorem scanMembers_gap (fuel : Nat) (style : Style) (depth : Nat) (cs : List Char) :
    scanMembers fuel (gap style depth ++ cs) = scanMembers fuel cs := by
  cases fuel with
  | zero => rw [scanMembers, scanMembers]
  | succ fuel => rw [scanMembers, scanMembers, skipSpace_gap]

theorem scanValue_colon (fuel : Nat) (style : Style) (cs : List Char) :
    ∃ rest, skipSpace (colon style ++ cs) = ':' :: rest ∧
      scanValue fuel rest = scanValue fuel cs := by
  cases style with
  | none => exact ⟨cs, rfl, rfl⟩
  | some n =>
    refine ⟨' ' :: cs, rfl, ?_⟩
    cases fuel with
    | zero => rw [scanValue, scanValue]
    | succ fuel => rw [scanValue, scanValue]; rfl

theorem scanValue_number {c : Char} (first : Literal.isDigit c = true ∨ c = '-') (fuel : Nat)
    (cs : List Char) : scanValue (fuel + 1) (c :: cs) = scanNumber (c :: cs) := by
  have other {c' : Char} {cs' : List Char} (same : c :: cs = c' :: cs')
      (h : Literal.isDigit c' = false ∧ c' ≠ '-') : False := by
    obtain ⟨rfl, -⟩ := List.cons.inj same
    rcases first with digit | minus
    · exact Bool.false_ne_true (h.1.symm.trans digit)
    · exact h.2 minus
  have space : isSpace c = false := by
    rcases first with digit | rfl
    · exact (starts_of_isDigit digit).1
    · rfl
  rw [scanValue, skipSpace_cons space]
  split
  · next same => exact (other same (by decide)).elim
  · next same => exact (other same (by decide)).elim
  · next same => exact (other same (by decide)).elim
  · next same => exact (other same (by decide)).elim
  · next same => exact (other same (by decide)).elim
  · next same => exact (other same (by decide)).elim
  · rfl

theorem scanValue_natText {n : Nat} (fits : n < 1 <<< 64) {tail : List Char}
    (ends : EndsNumber tail) (fuel : Nat) :
    scanValue (fuel + 1) (natText n ++ tail) = some (unsigned (UInt64.ofNat n), tail) := by
  have read := scanNumber_natText fits ends
  obtain ⟨c, cs, text, digit⟩ := natText_eq_cons n
  rw [text, List.cons_append] at read ⊢
  rw [scanValue_number (.inl digit), read]

theorem scanValue_signed (n : Int64) {tail : List Char} (ends : EndsNumber tail) (fuel : Nat) :
    scanValue (fuel + 1) (intText n.toInt ++ tail) = some ((signed n).normal, tail) := by
  have low := n.le_toInt
  have high := n.toInt_lt
  rw [intText, normal]
  split_ifs with negative
  · have back : Int64.ofInt (-(n.toInt.natAbs : Int)) = n := by
      rw [show -(n.toInt.natAbs : Int) = n.toInt by omega, Int64.ofInt_toInt]
    rw [List.cons_append, scanValue_number (.inr rfl), scanNumber_minus (by omega) ends, back]
  · exact scanValue_natText (by omega) ends fuel

theorem scanValue_floatText {x : Binary64} (finite : x.isFinite = true) {tail : List Char}
    (ends : EndsNumber tail) (fuel : Nat) :
    scanValue (fuel + 1) (floatText x ++ tail) = some (float x, tail) := by
  have read := scanNumber_floatText finite ends
  obtain ⟨c, cs, text, first⟩ := floatText_eq_cons finite
  rw [text, List.cons_append] at read ⊢
  rw [scanValue_number first, read]

theorem scanValue_array {c : Char} (first : Starts c) (fuel : Nat) (style : Style) (depth : Nat)
    (cs : List Char) :
    scanValue (fuel + 1) ('[' :: (gap style depth ++ c :: cs)) =
      (scanItems fuel (c :: cs)).map fun (xs, rest) => (array xs, rest) := by
  rw [scanValue, skipSpace_cons (by decide)]
  simp only [skipSpace_gap, skipSpace_cons first.1]
  split
  · next closed => exact absurd (List.cons.inj closed).1 first.2.1
  · rfl

theorem scanValue_object (fuel : Nat) (style : Style) (depth : Nat) (cs : List Char) :
    scanValue (fuel + 1) ('{' :: (gap style depth ++ '"' :: cs)) =
      (scanMembers fuel ('"' :: cs)).map fun (ms, rest) => (ofMembers ms, rest) := by
  rw [scanValue, skipSpace_cons (by decide)]
  simp only [skipSpace_gap, skipSpace_cons (show isSpace '"' = false by decide)]
  rfl

/-- The text of the value is read back, with as much fuel as the text is long. -/
def ReadsBack (j : Json) : Prop :=
  ∀ (style : Style) (depth fuel : Nat) (tail : List Char), EndsNumber tail →
    (render style depth j).length ≤ fuel →
      scanValue fuel (render style depth j ++ tail) = some (j.normal, tail)

theorem endsNumber_gap (style : Style) (depth : Nat) {c : Char}
    (h : Literal.isDigit c = false ∧ c ≠ '.' ∧ c ≠ 'e' ∧ c ≠ 'E') (cs : List Char) :
    EndsNumber (gap style depth ++ c :: cs) := by
  cases style with
  | none => exact endsNumber_cons h.1 h.2.1 h.2.2.1 h.2.2.2 cs
  | some n => exact endsNumber_cons (by decide) (by decide) (by decide) (by decide) _

theorem endsNumber_renderItems (style : Style) (depth : Nat) (xs : List Json) (tail : List Char) :
    EndsNumber (renderItems style depth xs ++ tail) := by
  cases xs with
  | nil =>
    rw [renderItems, List.append_assoc]
    exact endsNumber_gap style depth (by decide) tail
  | cons x xs => exact endsNumber_cons (by decide) (by decide) (by decide) (by decide) _

theorem endsNumber_renderMembers (style : Style) (depth : Nat) (ms : List (String × Json))
    (tail : List Char) : EndsNumber (renderMembers style depth ms ++ tail) := by
  cases ms with
  | nil =>
    rw [renderMembers, List.append_assoc]
    exact endsNumber_gap style depth (by decide) tail
  | cons m ms => exact endsNumber_cons (by decide) (by decide) (by decide) (by decide) _

theorem scanItems_render {x : Json} {xs : List Json} (h : ∀ y ∈ x :: xs, ReadsBack y)
    (style : Style) (depth : Nat) {fuel : Nat} (tail : List Char)
    (enough : (render style (depth + 1) x).length + (renderItems style depth xs).length ≤ fuel) :
    scanItems fuel (render style (depth + 1) x ++ (renderItems style depth xs ++ tail)) =
      some (normalItems (x :: xs), tail) := by
  induction xs generalizing x fuel with
  | nil =>
    rw [renderItems, List.length_append, List.length_singleton] at enough
    obtain ⟨fuel, rfl⟩ := Nat.exists_eq_add_one.mpr (show 0 < fuel by omega)
    have first := h x List.mem_cons_self style (depth + 1) fuel _
      (endsNumber_renderItems style depth [] tail) (by omega)
    have close : skipSpace (renderItems style depth [] ++ tail) = ']' :: tail := by
      rw [renderItems, List.append_assoc, skipSpace_gap]
      rfl
    simp only [scanItems, first, close]
    rfl
  | cons y ys ih =>
    simp only [renderItems, List.length_cons, List.length_append] at enough
    obtain ⟨fuel, rfl⟩ := Nat.exists_eq_add_one.mpr (show 0 < fuel by omega)
    have first := h x List.mem_cons_self style (depth + 1) fuel _
      (endsNumber_renderItems style depth (y :: ys) tail) (by omega)
    have others := ih (fun z hz => h z (List.mem_cons_of_mem x hz)) (show _ ≤ fuel by omega)
    rw [scanItems, first]
    simp only [renderItems, List.cons_append, List.append_assoc]
    rw [skipSpace_cons (by decide)]
    simp only [scanItems_gap, others]
    rfl

theorem scanMembers_last (k : String) {v : Json} (h : v.ReadsBack) (style : Style) (depth : Nat)
    {fuel : Nat} (enough : (render style depth v).length ≤ fuel) {rest tail : List Char}
    (ends : EndsNumber rest) (close : skipSpace rest = '}' :: tail) :
    scanMembers (fuel + 1) (stringText k ++ (colon style ++ (render style depth v ++ rest))) =
      some ([(k, v.normal)], tail) := by
  obtain ⟨behind, colon, same⟩ := scanValue_colon fuel style (render style depth v ++ rest)
  rw [h style depth fuel rest ends enough] at same
  rw [stringText_append, scanMembers, skipSpace_cons (by decide)]
  simp only [scanString_flatMap, colon, same, close, String.ofList_toList]

theorem scanMembers_next (k : String) {v : Json} (h : v.ReadsBack) (style : Style) (depth : Nat)
    {fuel : Nat} (enough : (render style depth v).length ≤ fuel) {rest more tail : List Char}
    (ends : EndsNumber rest) (comma : skipSpace rest = ',' :: more) {ms : List (String × Json)}
    (others : scanMembers fuel more = some (ms, tail)) :
    scanMembers (fuel + 1) (stringText k ++ (colon style ++ (render style depth v ++ rest))) =
      some ((k, v.normal) :: ms, tail) := by
  obtain ⟨behind, colon, same⟩ := scanValue_colon fuel style (render style depth v ++ rest)
  rw [h style depth fuel rest ends enough] at same
  rw [stringText_append, scanMembers, skipSpace_cons (by decide)]
  simp only [scanString_flatMap, colon, same, comma, others, Option.map_some, String.ofList_toList]

theorem scanMembers_render {k : String} {v : Json} {ms : List (String × Json)}
    (h : ∀ m ∈ (k, v) :: ms, ReadsBack m.2) (style : Style) (depth : Nat) {fuel : Nat}
    (tail : List Char)
    (enough : (render style (depth + 1) v).length + (renderMembers style depth ms).length ≤ fuel) :
    scanMembers fuel (stringText k ++ (colon style ++ (render style (depth + 1) v ++
      (renderMembers style depth ms ++ tail)))) = some (normalMembers ((k, v) :: ms), tail) := by
  have first : ReadsBack v := h (k, v) List.mem_cons_self
  have ends := endsNumber_renderMembers style depth ms tail
  induction ms generalizing k v fuel with
  | nil =>
    rw [renderMembers, List.length_append, List.length_singleton] at enough
    obtain ⟨fuel, rfl⟩ := Nat.exists_eq_add_one.mpr (show 0 < fuel by omega)
    have close : skipSpace (renderMembers style depth [] ++ tail) = '}' :: tail := by
      rw [renderMembers, List.append_assoc, skipSpace_gap]
      rfl
    exact scanMembers_last k first style (depth + 1) (show _ ≤ fuel by omega) ends close
  | cons m ms ih =>
    obtain ⟨k', v'⟩ := m
    simp only [renderMembers, List.length_cons, List.length_append] at enough
    obtain ⟨fuel, rfl⟩ := Nat.exists_eq_add_one.mpr (show 0 < fuel by omega)
    have later : ∀ m ∈ (k', v') :: ms, ReadsBack m.2 := fun m hm => h m (List.mem_cons_of_mem _ hm)
    have others := ih later (show _ ≤ fuel by omega) (later (k', v') List.mem_cons_self)
      (endsNumber_renderMembers style depth ms tail)
    rw [← scanMembers_gap fuel style (depth + 1)] at others
    have comma : skipSpace (renderMembers style depth ((k', v') :: ms) ++ tail) =
        ',' :: (gap style (depth + 1) ++ (stringText k' ++ (colon style ++
          (render style (depth + 1) v' ++ (renderMembers style depth ms ++ tail))))) := by
      rw [renderMembers, List.cons_append, skipSpace_cons (by decide)]
      simp only [List.append_assoc]
    exact scanMembers_next k first style (depth + 1) (show _ ≤ fuel by omega) ends comma others

theorem Plain.readsBack_of_succ {j : Json} (plain : j.Plain)
    (h : ∀ (style : Style) (depth fuel : Nat) (tail : List Char), EndsNumber tail →
      (render style depth j).length ≤ fuel + 1 →
        scanValue (fuel + 1) (render style depth j ++ tail) = some (j.normal, tail)) :
    j.ReadsBack := by
  intro style depth fuel tail ends enough
  obtain ⟨c, cs, text, -⟩ := plain.starts style depth
  cases fuel with
  | zero => simp [text] at enough
  | succ fuel => exact h style depth fuel tail ends enough

theorem Plain.readsBack {j : Json} (h : j.Plain) : j.ReadsBack := by
  -- on the value: every item and every member of the level below is read back
  induction h with
  | null =>
    apply Plain.null.readsBack_of_succ
    intro style depth fuel tail ends enough
    rfl
  | bool b =>
    apply (Plain.bool b).readsBack_of_succ
    intro style depth fuel tail ends enough
    cases b <;> rfl
  | unsigned n =>
    apply (Plain.unsigned n).readsBack_of_succ
    intro style depth fuel tail ends enough
    rw [render, scanValue_natText (n.toNat_lt.trans_le (by decide)) ends, UInt64.ofNat_toNat]
    rfl
  | signed n =>
    apply (Plain.signed n).readsBack_of_succ
    intro style depth fuel tail ends enough
    exact scanValue_signed n ends fuel
  | float finite =>
    apply (Plain.float finite).readsBack_of_succ
    intro style depth fuel tail ends enough
    exact scanValue_floatText finite ends fuel
  | string s =>
    apply (Plain.string s).readsBack_of_succ
    intro style depth fuel tail ends enough
    rw [render, stringText_append, scanValue, skipSpace_cons (by decide)]
    simp only [scanString_flatMap, Option.map_some, String.ofList_toList, normal]
  | @array xs items ih =>
    apply (Plain.array items).readsBack_of_succ
    intro style depth fuel tail ends enough
    cases xs with
    | nil => rfl
    | cons x xs =>
      obtain ⟨c, cs, text, first⟩ := (items x List.mem_cons_self).starts style (depth + 1)
      simp only [render, List.length_cons, List.length_append] at enough
      have read := scanItems_render ih style depth tail (show _ ≤ fuel by omega)
      simp only [render, List.cons_append, List.append_assoc]
      rw [text, List.cons_append] at read ⊢
      rw [scanValue_array first, read]
      rfl
  | @object ms sorted members ih =>
    apply (Plain.object sorted members).readsBack_of_succ
    intro style depth fuel tail ends enough
    cases ms with
    | nil => rfl
    | cons m ms =>
      obtain ⟨k, v⟩ := m
      simp only [render, List.length_cons, List.length_append] at enough
      have read := scanMembers_render ih style depth tail (show _ ≤ fuel by omega)
      simp only [render, List.cons_append, List.append_assoc]
      rw [stringText_append] at read ⊢
      have object := ofMembers_of_sorted (sorted_normalMembers sorted)
      rw [scanValue_object, read]
      simp only [Option.map_some, object]
      rfl

theorem endsNumber_of_blank {tail : List Char} (blank : skipSpace tail = []) : EndsNumber tail := by
  cases tail with
  | nil => exact endsNumber_nil
  | cons c cs =>
    have space : isSpace c = true := by
      by_contra other
      rw [skipSpace_cons (Bool.eq_false_iff.mpr other)] at blank
      cases blank
    simp only [isSpace, Bool.or_eq_true, decide_eq_true_eq] at space
    rcases space with ((rfl | rfl) | rfl) | rfl <;>
      exact endsNumber_cons (by decide) (by decide) (by decide) (by decide) cs

theorem Plain.parse?_render {j : Json} (h : j.Plain) (style : Style) {tail : List Char}
    (blank : skipSpace tail = []) :
    parse? (String.ofList (render style 0 j ++ tail)) = some j.normal := by
  have noMark : skipMark (render style 0 j ++ tail) = render style 0 j ++ tail := by
    obtain ⟨c, cs, text, -, -, other⟩ := h.starts style 0
    rw [text, List.cons_append, skipMark, if_neg other]
  have read := h.readsBack style 0 (2 * (render style 0 j ++ tail).length + 2) tail
    (endsNumber_of_blank blank) (by rw [List.length_append]; omega)
  simp only [parse?, String.toList_ofList, noMark, read, blank, isEnd, if_true]

theorem plain_of_finite? {x : Binary64} {j : Json} (h : finite? x = some j) : j.Plain := by
  rw [finite?] at h
  split at h
  · next finite =>
    cases h
    exact .float finite
  · cases h

theorem plain_of_number? {negative : Bool} {whole : List Char} {fraction : Option (List Char)}
    {exponent : Option Int} {j : Json} (h : number? negative whole fraction exponent = some j) :
    j.Plain := by
  unfold number? at h
  split at h
  · dsimp only at h
    split_ifs at h
    · cases h
      exact .signed _
    · exact plain_of_finite? h
    · cases h
      exact .unsigned _
    · exact plain_of_finite? h
  · exact plain_of_finite? h

theorem plain_of_scanNumber {cs rest : List Char} {j : Json} (h : scanNumber cs = some (j, rest)) :
    j.Plain := by
  unfold scanNumber at h
  split at h
  simp only [Option.bind_eq_bind, Option.bind_eq_some_iff, Option.pure_def] at h
  obtain ⟨_, -, _, -, _, -, _, number, same⟩ := h
  cases same
  exact plain_of_number? number

theorem plain_of_scan (fuel : Nat) :
    (∀ cs j rest, scanValue fuel cs = some (j, rest) → j.Plain) ∧
    (∀ cs xs rest, scanItems fuel cs = some (xs, rest) → ∀ x ∈ xs, x.Plain) ∧
    ∀ cs ms rest, scanMembers fuel cs = some (ms, rest) → ∀ m ∈ ms, m.2.Plain := by
  induction fuel with
  | zero => exact ⟨nofun, nofun, nofun⟩
  | succ fuel ih =>
    obtain ⟨value, items, members⟩ := ih
    refine ⟨?_, ?_, ?_⟩
    · intro cs j rest h
      rw [scanValue] at h
      split at h
      · cases h
        exact .null
      · cases h
        exact .bool true
      · cases h
        exact .bool false
      · obtain ⟨_, -, same⟩ := Option.map_eq_some_iff.mp h
        cases same
        exact .string _
      · split at h
        · cases h
          exact .array nofun
        · obtain ⟨_, read, same⟩ := Option.map_eq_some_iff.mp h
          cases same
          exact .array (items _ _ _ read)
      · split at h
        · cases h
          exact .object .nil nofun
        · obtain ⟨_, read, same⟩ := Option.map_eq_some_iff.mp h
          cases same
          exact plain_ofMembers (members _ _ _ read)
      · exact plain_of_scanNumber h
    · intro cs xs rest h
      rw [scanItems] at h
      split at h
      · cases h
      · next first rest' read =>
        split at h
        · obtain ⟨_, others, same⟩ := Option.map_eq_some_iff.mp h
          cases same
          exact List.forall_mem_cons.mpr ⟨value _ _ _ read, items _ _ _ others⟩
        · cases h
          exact List.forall_mem_singleton.mpr (value _ _ _ read)
        · cases h
    · intro cs ms rest h
      rw [scanMembers] at h
      split at h
      · split at h
        · cases h
        · split at h
          · split at h
            · cases h
            · next read =>
              split at h
              · obtain ⟨_, others, same⟩ := Option.map_eq_some_iff.mp h
                cases same
                exact List.forall_mem_cons.mpr ⟨value _ _ _ read, members _ _ _ others⟩
              · cases h
                exact List.forall_mem_singleton.mpr (value _ _ _ read)
              · cases h
          · cases h
      · cases h

theorem plain_of_parse? {text : String} {j : Json} (h : parse? text = some j) : j.Plain := by
  simp only [parse?] at h
  split at h
  · next read =>
    split_ifs at h
    cases h
    exact (plain_of_scan _).1 _ _ _ read
  · cases h

theorem parseBytes?_toUTF8 (text : String) : parseBytes? text.toUTF8.toList = parse? text := by
  have same : text.toUTF8.toList = text.toUTF8.data.toList := Text.toList_eq_data text.toUTF8
  have valid : String.fromUTF8? text.toUTF8 = some text := by
    unfold String.fromUTF8?
    rw [String.toUTF8_eq_toByteArray, dif_pos text.isValidUTF8]
    rfl
  simp only [parseBytes?, textOf?, same, Array.toArray_toList, valid]
  rfl

end WireRecords.Json
