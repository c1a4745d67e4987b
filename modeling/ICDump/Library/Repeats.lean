/-
Loops over a relation.

What the body of a loop does to a cursor may be given by a relation instead of a reader:
`R it b it'` says that from `it` the body makes `b` and leaves `it'`.  `Repeats R` is the
relation of the whole loop.  It is the rule for loops in a definition of a recursive reader by
rules, where `R` is the relation that is being defined.

A reader that the relation describes runs as the relation says (`repeatUntil_eq`), and what the
loop makes belongs to the cursors that the reader visits (`exists_visit`, `exists_mem`).  A body
that advances makes a loop that ends (`exists_of_advances`).
-/
import ICDump.Library.Cursor

namespace ICDump

variable {α β γ : Type*}

/-- `Repeats R it stop bs it'`: from `it`, the body `R` runs until `stop` holds, makes the list
`bs` and leaves `it'`. -/
inductive Repeats (R : List α → β → List α → Prop) :
    List α → (List α → Bool) → List β → List α → Prop
  | done {it : List α} {stop : List α → Bool} (hs : stop it = true) : Repeats R it stop [] it
  | next {it it' it'' : List α} {stop : List α → Bool} {b : β} {bs : List β}
      (hs : stop it = false) (h : R it b it') (hrest : Repeats R it' stop bs it'') :
      Repeats R it stop (b :: bs) it''

namespace Repeats

variable {R S : List α → β → List α → Prop} {stop : List α → Bool} {it it' : List α} {bs : List β}

lemma imp (h : Repeats R it stop bs it') (hRS : ∀ it b it', R it b it' → S it b it') :
    Repeats S it stop bs it' := by
  induction h with
  | done hs => exact .done hs
  | next hs hb hrest ih => exact .next hs (hRS _ _ _ hb) ih

/-- A loop leaves the cursor where its condition stops it. -/
lemma stop_eq (h : Repeats R it stop bs it') : stop it' = true := by
  induction h with
  | done hs => exact hs
  | next hs hb hrest ih => exact ih

/-- A reader whose results are described by the relation runs as the relation says. -/
lemma repeatUntil_eq {p : Reader α γ} {f : β → γ} (hstop : stop [] = true) (hp : p.Advances)
    (hR : ∀ it b it', R it b it' → p it = (f b, it')) (h : Repeats R it stop bs it') :
    Reader.repeatUntil stop p it = (bs.map f, it') := by
  induction h with
  | done hs => exact Reader.repeatUntil_of_stop hs
  | next hs hb hrest ih =>
      rw [Reader.repeatUntil_of_not_stop hstop hp hs, hR _ _ _ hb, ih hstop]
      rfl

/-- Every result of a loop has the property that its body guarantees. -/
lemma forall_mem {P : β → Prop} (h : Repeats R it stop bs it') (hR : ∀ it b it', R it b it' → P b) :
    ∀ b ∈ bs, P b := by
  induction h with
  | done hs => simp
  | next hs hb hrest ih => exact List.forall_mem_cons.2 ⟨hR _ _ _ hb, ih⟩

/-! ### The cursors that a reader visits -/

section

variable {p : Reader α γ} {it₁ : List α} {b : β}

lemma suffix (hp : p.Forward) (hR : ∀ it b it', R it b it' → (p it).2 = it')
    (h : Repeats R it stop bs it') : it' <:+ it := by
  induction h with
  | done => exact List.suffix_rfl
  | @next it it' _ _ _ _ _ hb _ ih =>
      have hbody := hp it
      rw [hR _ _ _ hb] at hbody
      exact ih.trans hbody

/-- The reader ends where the relation does. -/
lemma repeatUntil_snd (hstop : stop [] = true) (hp : p.Advances)
    (hR : ∀ it b it', R it b it' → (p it).2 = it') (h : Repeats R it stop bs it') :
    (Reader.repeatUntil stop p it).2 = it' := by
  induction h with
  | done hs => rw [Reader.repeatUntil_of_stop hs]
  | next hs hb hrest ih =>
      rw [Reader.repeatUntil_of_not_stop hstop hp hs, hR _ _ _ hb]
      exact ih hstop

/-- What a loop makes, it makes at a cursor that the reader visits. -/
lemma exists_visit (hp : p.Forward) (hR : ∀ it b it', R it b it' → (p it).2 = it')
    (h : Repeats R it stop bs it') (hb : b ∈ bs) :
    ∃ it₁ it₂, Reader.Visits stop p it it₁ ∧ R it₁ b it₂ ∧ it' <:+ it₂ := by
  induction h with
  | done => exact absurd hb List.not_mem_nil
  | @next it it₂ it' stop b' bs hs h hrest ih =>
      rcases List.mem_cons.1 hb with rfl | hb
      · exact ⟨it, it₂, .here hs, h, hrest.suffix hp hR⟩
      · obtain ⟨it₁, it₃, hv, hrule⟩ := ih hb
        rw [← hR _ _ _ h] at hv
        exact ⟨it₁, it₃, .next hs hv, hrule⟩

/-- At every cursor that the reader visits, the loop makes something. -/
lemma exists_mem (hR : ∀ it b it', R it b it' → (p it).2 = it') (h : Repeats R it stop bs it')
    (hv : Reader.Visits stop p it it₁) : ∃ b ∈ bs, ∃ it₂, R it₁ b it₂ := by
  induction hv generalizing bs with
  | here hs =>
      cases h with
      | done hs' => exact absurd (hs.symm.trans hs') (by simp)
      | next _ h _ => exact ⟨_, List.mem_cons_self, _, h⟩
  | next hs hv ih =>
      cases h with
      | done hs' => exact absurd (hs.symm.trans hs') (by simp)
      | next _ h hrest =>
          obtain ⟨b, hb, hrule⟩ := ih (hR _ _ _ h ▸ hrest)
          exact ⟨b, List.mem_cons_of_mem _ hb, hrule⟩

/-- After a visit, the loop goes on. -/
lemma after_visit (hR : ∀ it b it', R it b it' → (p it).2 = it') (h : Repeats R it stop bs it')
    (hv : Reader.Visits stop p it it₁) : ∃ bs', Repeats R (p it₁).2 stop bs' it' := by
  induction hv generalizing bs with
  | here hs =>
      cases h with
      | done hs' => exact absurd (hs.symm.trans hs') (by simp)
      | next _ h hrest => exact ⟨_, hR _ _ _ h ▸ hrest⟩
  | next hs hv ih =>
      cases h with
      | done hs' => exact absurd (hs.symm.trans hs') (by simp)
      | next _ h hrest => exact ih (hR _ _ _ h ▸ hrest)

/-- What a loop makes last leaves the cursor where the loop ends. -/
lemma exists_last_visit (hR : ∀ it b it', R it b it' → (p it).2 = it')
    (h : Repeats R it stop bs it') (hlast : bs.getLast? = some b) :
    ∃ it₁, Reader.Visits stop p it it₁ ∧ R it₁ b it' := by
  induction h with
  | done => exact absurd hlast (by simp)
  | @next it it₂ it' stop b' bs hs h hrest ih =>
      cases hrest with
      | done =>
          obtain rfl : b' = b := by simpa using hlast
          exact ⟨it, .here hs, h⟩
      | next hs' h' hrest' =>
          rw [List.getLast?_cons_cons] at hlast
          obtain ⟨it₁, hv, hrule⟩ := ih hlast
          rw [← hR _ _ _ h] at hv
          exact ⟨it₁, .next hs hv, hrule⟩

/-- A visit after which the loop stops is the last one. -/
lemma getLast?_of_visits (hR : ∀ it b it', R it b it' → (p it).2 = it')
    (h : Repeats R it stop bs it') (hv : Reader.Visits stop p it it₁)
    (hs : stop (p it₁).2 = true) : ∃ b, bs.getLast? = some b ∧ R it₁ b it' := by
  induction hv generalizing bs with
  | here hs' =>
      cases h with
      | done hs'' => exact absurd (hs'.symm.trans hs'') (by simp)
      | next _ h hrest =>
          rw [hR _ _ _ h] at hs
          cases hrest with
          | done => exact ⟨_, rfl, h⟩
          | next hs'' => exact absurd (hs.symm.trans hs'') (by simp)
  | next hs' hv ih =>
      cases h with
      | done hs'' => exact absurd (hs'.symm.trans hs'') (by simp)
      | next _ h hrest =>
          obtain ⟨b, hlast, hrule⟩ := ih (hR _ _ _ h ▸ hrest) hs
          exact ⟨b, by rw [List.getLast?_cons, hlast]; rfl, hrule⟩

/-- A property of the cursor that every visit keeps holds where the loop ends. -/
lemma invariant {I : List α → Prop} (hR : ∀ it b it', R it b it' → (p it).2 = it')
    (h : Repeats R it stop bs it') (hit : I it)
    (hI : ∀ it₁, Reader.Visits stop p it it₁ → I it₁ → I (p it₁).2) : I it' := by
  induction h with
  | done => exact hit
  | next hs h hrest ih =>
      have hnext := hI _ (.here hs) hit
      rw [hR _ _ _ h] at hnext
      exact ih hnext fun it₁ hv => hI it₁ (.next hs (hR _ _ _ h ▸ hv))

end

/-- A loop ends when its body advances from every cursor that is not longer. -/
lemma exists_of_advances (hstop : stop [] = true)
    (h : ∀ it', it'.length ≤ it.length → it' ≠ [] →
      ∃ b it'', R it' b it'' ∧ it''.length < it'.length) :
    ∃ bs it', Repeats R it stop bs it' := by
  induction hn : it.length using Nat.strong_induction_on generalizing it with
  | _ n ih =>
      cases hs : stop it with
      | true => exact ⟨[], it, .done hs⟩
      | false =>
          have hne : it ≠ [] := by
            rintro rfl
            rw [hstop] at hs
            exact absurd hs (by simp)
          obtain ⟨b, it', hb, hlt⟩ := h it le_rfl hne
          obtain ⟨bs, it'', hbs⟩ := ih _ (hn ▸ hlt) (fun it₁ h₁ => h it₁ (h₁.trans hlt.le)) rfl
          exact ⟨b :: bs, it'', .next hs hb hbs⟩

end Repeats

end ICDump
