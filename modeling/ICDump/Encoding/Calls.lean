/-
The calls of the decoder.

`Calls it it'` says that the call of `process` at `it` calls `process` at `it'`, and `Reaches w it`
that decoding the string `w` calls `process` at `it`.  They say where the decoder looks at the
string, `Reads` what it finds there: the calls of `process` at a cursor are made for the parts of
the part that is found at the cursor (`Reads.exists_calls`, `Calls.exists_part`).  So what is said
of a string in terms of its parts can be said in terms of the cursors that are reached
(`Splits.exists_iff_reaches`).
-/
import ICDump.Encoding.Recovery

namespace ICDump

/-- `Calls it it'`: the call of `process` at `it` calls `process` at `it'`. -/
inductive Calls : Str → Str → Prop
  | pointer {it rest : Str} (hc : codeAt it = '^' :: rest) (h : rest.head? ≠ some '?') :
      Calls it rest
  | array {it rest it' : Str} (hc : codeAt it = '[' :: rest) (hnum : (readStrNumber rest).1 ≠ [])
      (hv : Reader.Visits (atDelim ']') process (readStrNumber rest).2 it') : Calls it it'
  | struct {it rest it' : Str} (hc : codeAt it = '{' :: rest) (ho : ¬ OpaqueName '}' rest)
      (hv : Reader.Visits (atDelim '}') (processAttr process) (bodyAt rest) it') :
      Calls it (readOptName it').2
  | union {it rest it' : Str} (hc : codeAt it = '(' :: rest)
      (hv : Reader.Visits (atDelim ')') (processAttr process) (bodyAt rest) it') :
      Calls it (readOptName it').2

/-- `Reaches w it`: decoding the string `w` calls `process` at `it`. -/
def Reaches (w it : Str) : Prop :=
  ∃ it', Reader.Visits List.isEmpty decodeStep w it' ∧
    Relation.ReflTransGen Calls (processSpecifier it').2 it

/-- The call of `process` at `it`, and the calls that it makes, are at cursors where `P` holds. -/
def Throughout (P : Str → Prop) (it : Str) : Prop :=
  ∀ it', Relation.ReflTransGen Calls it it' → P it'

variable {P : Str → Prop} {it it' rest : Str} {p q : Part} {c : Char}

lemma Throughout.self (h : Throughout P it) : P it := h it .refl

lemma Throughout.of_calls (h : Throughout P it) (hcall : Calls it it') : Throughout P it' :=
  fun it'' hcalls => h it'' (.head hcall hcalls)

lemma Throughout.mk (hit : P it) (h : ∀ it', Calls it it' → Throughout P it') :
    Throughout P it := by
  intro it' hcalls
  rcases hcalls.cases_head with rfl | ⟨it'', hcall, hcalls⟩
  · exact hit
  · exact h it'' hcall it' hcalls

/-! ### One call -/

lemma calls_pointer_iff (hc : codeAt it = '^' :: rest) :
    Calls it it' ↔ rest.head? ≠ some '?' ∧ it' = rest := by
  constructor
  · rintro (⟨hc', hv⟩ | ⟨hc', -, -⟩ | ⟨hc', -, -⟩ | ⟨hc', -⟩)
    · obtain rfl := (List.cons.inj (hc.symm.trans hc')).2
      exact ⟨hv, rfl⟩
    all_goals exact absurd (List.cons.inj (hc.symm.trans hc')).1 (by decide)
  · rintro ⟨hv, rfl⟩
    exact .pointer hc hv

lemma calls_array_iff (hc : codeAt it = '[' :: rest) :
    Calls it it' ↔ (readStrNumber rest).1 ≠ [] ∧
      Reader.Visits (atDelim ']') process (readStrNumber rest).2 it' := by
  constructor
  · rintro (⟨hc', -⟩ | ⟨hc', hnum, hv⟩ | ⟨hc', -, -⟩ | ⟨hc', -⟩)
    · exact absurd (List.cons.inj (hc.symm.trans hc')).1 (by decide)
    · obtain rfl := (List.cons.inj (hc.symm.trans hc')).2
      exact ⟨hnum, hv⟩
    all_goals exact absurd (List.cons.inj (hc.symm.trans hc')).1 (by decide)
  · exact fun h => .array hc h.1 h.2

/-- The loop of a structure or union calls `process` behind the names of its fields. -/
lemma calls_aggregate_iff (tag : Aggregate) (hc : codeAt it = tag.opening :: rest) :
    Calls it it' ↔ (tag = .struct → ¬ OpaqueName '}' rest) ∧
      ∃ it₁, Reader.Visits (atDelim tag.closing) (processAttr process) (bodyAt rest) it₁ ∧
        it' = (readOptName it₁).2 := by
  constructor
  · rintro (⟨hc', -⟩ | ⟨hc', -, -⟩ | ⟨hc', ho, hv⟩ | ⟨hc', hv⟩)
    · cases tag <;> exact absurd (List.cons.inj (hc.symm.trans hc')).1 (by decide)
    · cases tag <;> exact absurd (List.cons.inj (hc.symm.trans hc')).1 (by decide)
    · cases tag with
      | struct =>
          obtain rfl := (List.cons.inj (hc.symm.trans hc')).2
          exact ⟨fun _ => ho, _, hv, rfl⟩
      | union => exact absurd (List.cons.inj (hc.symm.trans hc')).1 (by decide)
    · cases tag with
      | struct => exact absurd (List.cons.inj (hc.symm.trans hc')).1 (by decide)
      | union =>
          obtain rfl := (List.cons.inj (hc.symm.trans hc')).2
          exact ⟨nofun, _, hv, rfl⟩
  · rintro ⟨ho, it₁, hv, rfl⟩
    cases tag with
    | struct => exact .struct hc (ho rfl) hv
    | union => exact .union hc hv

/-- Only letters for pointers and opening brackets make calls. -/
lemma Calls.exists_code (h : Calls it it') : ∃ c ∈ ['^', '[', '{', '('], ∃ rest,
    codeAt it = c :: rest ∧ it' <:+ rest := by
  have hattr : (processAttr process).Forward := processAttr_forward process_forward
  cases h with
  | pointer hc => exact ⟨'^', by simp, _, hc, List.suffix_rfl⟩
  | array hc _ hv =>
      exact ⟨'[', by simp, _, hc,
        (hv.suffix process_forward).trans (readStrNumberFrom_forward [] _)⟩
  | struct hc _ hv =>
      exact ⟨'{', by simp, _, hc,
        (readOptName_forward _).trans ((hv.suffix hattr).trans (bodyAt_suffix _))⟩
  | union hc hv =>
      exact ⟨'(', by simp, _, hc,
        (readOptName_forward _).trans ((hv.suffix hattr).trans (bodyAt_suffix _))⟩

/-- `process` calls itself on shorter strings only. -/
lemma Calls.length_lt (h : Calls it it') : it'.length < it.length := by
  obtain ⟨c, -, rest, hc, hsuf⟩ := h.exists_code
  exact hsuf.length_le.trans_lt (length_lt_of_codeAt hc)

/-- The calls depend on what is left when `process` looks at the code. -/
lemma Calls.congr {it₁ : Str} (hcode : codeAt it = codeAt it₁) (h : Calls it it') :
    Calls it₁ it' := by
  cases h with
  | pointer hc h => exact .pointer (hcode ▸ hc) h
  | array hc hnum hv => exact .array (hcode ▸ hc) hnum hv
  | struct hc ho hv => exact .struct (hcode ▸ hc) ho hv
  | union hc hv => exact .union (hcode ▸ hc) hv

/-! ### Calls and parts -/

/-- The parts that a part is made of. -/
def Part.parts : Part → List Part
  | rejected => []
  | leaf _ => []
  | pointer p => [p]
  | array _ _ ps => ps
  | aggregate _ _ _ fs => fs.map Prod.snd

/-- For each part of the part that is found, there is a call. -/
lemma Reads.exists_calls (h : Reads it p rest) (hq : q ∈ p.parts) :
    ∃ it' rest', Calls it it' ∧ Reads it' q rest' := by
  cases h with
  | nothing | rejected | leaf => exact absurd hq List.not_mem_nil
  | pointer hc hv h =>
      obtain rfl := List.mem_singleton.1 hq
      exact ⟨_, _, .pointer hc hv, h⟩
  | array hc hnum hloop hend =>
      obtain ⟨it₁, rest', hv, h, -⟩ := hloop.exists_visit process_forward
        (fun _ _ _ h => h.process_snd) hq
      exact ⟨it₁, rest', .array hc hnum hv, h⟩
  | aggregate hc ho hloop hend =>
      obtain ⟨f, hf, rfl⟩ := List.mem_map.1 hq
      obtain ⟨it₁, rest', hv, h, -⟩ := hloop.exists_visit (processAttr_forward process_forward)
        (fun _ _ _ h => h.processAttr_snd) hf
      cases h with
      | mk h => exact ⟨_, rest', (calls_aggregate_iff _ hc).2 ⟨ho, _, hv, rfl⟩, h⟩

/-- Every call is made for a part of the part that is found. -/
lemma Calls.exists_part (h : Calls it it') (hp : Reads it p rest) :
    ∃ q ∈ p.parts, ∃ rest', Reads it' q rest' := by
  cases h with
  | pointer hc hv =>
      obtain ⟨q, rfl, hq⟩ := hp.pointer_of_codeAt hc hv
      exact ⟨q, List.mem_singleton_self q, _, hq⟩
  | array hc hnum hv =>
      obtain ⟨ps, it₁, closed, rfl, hloop, -⟩ := hp.array_of_codeAt hc hnum
      obtain ⟨q, hq, hread⟩ := hloop.exists_mem (fun _ _ _ h => h.process_snd) hv
      exact ⟨q, hq, hread⟩
  | struct hc ho hv =>
      obtain ⟨fs, it₁, closed, rfl, hloop, -⟩ :=
        hp.aggregate_of_codeAt .struct hc fun _ => ho
      obtain ⟨f, hf, rest', hread⟩ := hloop.exists_mem (fun _ _ _ h => h.processAttr_snd) hv
      cases hread with
      | mk hread => exact ⟨_, List.mem_map_of_mem hf, _, hread⟩
  | union hc hv =>
      obtain ⟨fs, it₁, closed, rfl, hloop, -⟩ :=
        hp.aggregate_of_codeAt .union hc nofun
      obtain ⟨f, hf, rest', hread⟩ := hloop.exists_mem (fun _ _ _ h => h.processAttr_snd) hv
      cases hread with
      | mk hread => exact ⟨_, List.mem_map_of_mem hf, _, hread⟩

/-- A property that a part has by itself or by one of its parts is found along the calls. -/
lemma Reads.exists_iff_calls {Q : Part → Prop} {Here : Part → Prop}
    (hQ : ∀ p, Q p ↔ Here p ∨ ∃ q ∈ p.parts, Q q)
    (hP : ∀ it p rest, Reads it p rest → (P it ↔ Here p)) (h : Reads it p rest) :
    Q p ↔ ∃ it', Relation.ReflTransGen Calls it it' ∧ P it' := by
  induction hn : it.length using Nat.strong_induction_on generalizing it p rest with
  | _ n ih =>
      rw [hQ p]
      constructor
      · rintro (hhere | ⟨q, hq, hsub⟩)
        · exact ⟨it, .refl, (hP it p rest h).2 hhere⟩
        · obtain ⟨it', rest', hcall, hread⟩ := h.exists_calls hq
          obtain ⟨it'', hcalls, hit⟩ := (ih _ (hn ▸ hcall.length_lt) hread rfl).1 hsub
          exact ⟨it'', .head hcall hcalls, hit⟩
      · rintro ⟨it', hcalls, hit⟩
        rcases hcalls.cases_head with rfl | ⟨it'', hcall, hcalls⟩
        · exact Or.inl ((hP it p rest h).1 hit)
        · obtain ⟨q, hq, rest', hread⟩ := hcall.exists_part h
          exact Or.inr ⟨q, hq, (ih _ (hn ▸ hcall.length_lt) hread rfl).2 ⟨it', hcalls, hit⟩⟩

/-- What a string is split into has a property that parts have along the calls exactly when
decoding the string reaches it. -/
lemma Splits.exists_iff_reaches {Q : Part → Prop} {s : Str} {ps : List Part}
    (hQ : ∀ it p rest, Reads it p rest →
      (Q p ↔ ∃ it', Relation.ReflTransGen Calls it it' ∧ P it')) (h : Splits s ps) :
    (∃ p ∈ ps, Q p) ↔ ∃ it, Reaches s it ∧ P it := by
  have hR : ∀ it p rest, Reads (processSpecifier it).2 p rest → (decodeStep it).2 = rest :=
    fun _ _ _ h => h.process_snd
  constructor
  · rintro ⟨p, hp, hq⟩
    obtain ⟨it₁, rest, hv, hread, -⟩ := Repeats.exists_visit decodeStep_forward hR h hp
    obtain ⟨it', hcalls, hit⟩ := (hQ _ _ _ hread).1 hq
    exact ⟨it', ⟨it₁, hv, hcalls⟩, hit⟩
  · rintro ⟨it', ⟨it₁, hv, hcalls⟩, hit⟩
    obtain ⟨p, hp, rest, hread⟩ := Repeats.exists_mem hR h hv
    exact ⟨p, hp, (hQ _ _ _ hread).2 ⟨it', hcalls, hit⟩⟩

end ICDump
