/-
Readers over a list and the loops built from them.

A *reader* takes what is left of an input to a result and to what is left
afterwards; it is the functional form of a routine that moves a cursor through a
string.  Two things are set up here for an arbitrary alphabet.

* `repeatUntil stop p` runs `p` until `stop` holds of the cursor and collects the
  results, the form of every `while` loop that calls a reader in its body.
* `fix F d` ties the knot of a recursive reader whose body `F` only calls itself
  on shorter inputs.

Both are structurally recursive on a bound taken from the length of the input, so
they compute.  The equations `repeatUntil_eq` and `fix_eq` do not mention the
bound: it is enough that the body of the loop advances, and that the body of the
recursion is local.
-/
import Mathlib.Data.List.Infix
import Mathlib.Logic.Relation

namespace ICDump

/-- A reader: from what is left of the input, a result and what is left afterwards. -/
abbrev Reader (α β : Type*) : Type _ := List α → β × List α

namespace Reader

variable {α β γ : Type*}

/-- The reader leaves a suffix of its input: the cursor never moves back. -/
def Forward (p : Reader α β) : Prop := ∀ it, (p it).2 <:+ it

/-- Before the end of the input, the reader consumes at least one letter. -/
def Advances (p : Reader α β) : Prop := ∀ it, it ≠ [] → (p it).2.length < it.length

/-! ### Loops -/

/-- The loop of `repeatUntil`, with a bound on the number of its iterations. -/
def repeatBounded (stop : List α → Bool) (p : Reader α β) : ℕ → Reader α (List β)
  | 0, it => ([], it)
  | n + 1, it =>
      if stop it then ([], it)
      else
        let r := p it
        let rs := repeatBounded stop p n r.2
        (r.1 :: rs.1, rs.2)

/-- Run `p` until `stop` holds of the cursor, and collect the results. -/
def repeatUntil (stop : List α → Bool) (p : Reader α β) : Reader α (List β) :=
  fun it => repeatBounded stop p it.length it

variable {stop : List α → Bool} {p q : Reader α β}

lemma repeatBounded_succ (n : ℕ) (it : List α) :
    repeatBounded stop p (n + 1) it =
      if stop it then ([], it)
      else ((p it).1 :: (repeatBounded stop p n (p it).2).1,
        (repeatBounded stop p n (p it).2).2) := rfl

lemma repeatBounded_forward (hp : p.Forward) (n : ℕ) :
    (repeatBounded stop p n).Forward := by
  induction n with
  | zero => exact fun it => List.suffix_rfl
  | succ n ih =>
      intro it
      rw [repeatBounded_succ]
      split
      · exact List.suffix_rfl
      · exact (ih _).trans (hp it)

lemma repeatUntil_forward (stop : List α → Bool) (hp : p.Forward) : (repeatUntil stop p).Forward :=
  fun it => repeatBounded_forward hp it.length it

/-- The loop only looks at its body on the suffixes of the input. -/
lemma repeatBounded_congr (hp : p.Forward) {it : List α}
    (h : ∀ it', it' <:+ it → p it' = q it') (n : ℕ) :
    repeatBounded stop p n it = repeatBounded stop q n it := by
  induction n generalizing it with
  | zero => rfl
  | succ n ih =>
      rw [repeatBounded_succ, repeatBounded_succ, ← h it List.suffix_rfl,
        ih fun it' hit => h it' (hit.trans (hp it))]

lemma repeatUntil_congr (hp : p.Forward) {it : List α}
    (h : ∀ it', it' <:+ it → p it' = q it') :
    repeatUntil stop p it = repeatUntil stop q it :=
  repeatBounded_congr hp h it.length

/-- More iterations than letters change nothing, because every iteration consumes
a letter. -/
lemma repeatBounded_of_length_le (hstop : stop [] = true) (hp : p.Advances) {n m : ℕ}
    {it : List α} (hn : it.length ≤ n) (hm : it.length ≤ m) :
    repeatBounded stop p n it = repeatBounded stop p m it := by
  induction n generalizing m it with
  | zero =>
      have hit : it = [] := List.eq_nil_of_length_eq_zero (by omega)
      subst hit
      cases m with
      | zero => rfl
      | succ m => simp [repeatBounded, hstop]
  | succ n ih =>
      cases m with
      | zero =>
          have hit : it = [] := List.eq_nil_of_length_eq_zero (by omega)
          subst hit
          simp [repeatBounded, hstop]
      | succ m =>
          rw [repeatBounded_succ, repeatBounded_succ]
          by_cases hs : stop it = true
          · rw [if_pos hs, if_pos hs]
          · have hne : it ≠ [] := by
              rintro rfl
              exact hs hstop
            have hlt := hp it hne
            rw [if_neg hs, if_neg hs, ih (m := m) (by omega) (by omega)]

lemma repeatUntil_of_stop {it : List α} (hs : stop it = true) :
    repeatUntil stop p it = ([], it) := by
  rw [repeatUntil]
  cases it.length with
  | zero => rfl
  | succ n => rw [repeatBounded_succ, if_pos hs]

/-- One iteration of the loop. -/
lemma repeatUntil_of_not_stop (hstop : stop [] = true) (hp : p.Advances) {it : List α}
    (hs : stop it = false) :
    repeatUntil stop p it =
      ((p it).1 :: (repeatUntil stop p (p it).2).1, (repeatUntil stop p (p it).2).2) := by
  have hne : it ≠ [] := by
    rintro rfl
    rw [hstop] at hs
    exact absurd hs (by simp)
  obtain ⟨n, hn⟩ := Nat.exists_eq_succ_of_ne_zero (mt List.length_eq_zero_iff.1 hne)
  have hlt := hp it hne
  have hbound : repeatBounded stop p n (p it).2 = repeatUntil stop p (p it).2 :=
    repeatBounded_of_length_le hstop hp (by omega) le_rfl
  rw [repeatUntil, hn, repeatBounded_succ, if_neg (by simp [hs]), hbound]

/-- The induction rule of a loop: a property of the cursor, the results and the
final cursor that holds where the loop stops and is kept by an iteration put in
front. -/
lemma repeatUntil_induction (hstop : stop [] = true) (hp : p.Advances)
    {motive : List α → List β × List α → Prop}
    (done : ∀ it, stop it = true → motive it ([], it))
    (step : ∀ it rs, stop it = false → motive (p it).2 rs →
      motive it ((p it).1 :: rs.1, rs.2)) (it : List α) :
    motive it (repeatUntil stop p it) := by
  induction hn : it.length using Nat.strong_induction_on generalizing it with
  | _ n ih =>
      cases hs : stop it with
      | true =>
          rw [repeatUntil_of_stop hs]
          exact done it hs
      | false =>
          have hne : it ≠ [] := by
            rintro rfl
            rw [hstop] at hs
            exact absurd hs (by simp)
          rw [repeatUntil_of_not_stop hstop hp hs]
          -- the body advances, so the loop goes on with a shorter input
          exact step it _ hs (ih _ (hn ▸ hp it hne) _ rfl)

/-- A loop leaves the cursor where its condition stops it. -/
lemma stop_repeatUntil (hstop : stop [] = true) (hp : p.Advances) (it : List α) :
    stop (repeatUntil stop p it).2 = true :=
  repeatUntil_induction (motive := fun _ r => stop r.2 = true) hstop hp
    (fun _ hs => hs) (fun _ _ _ ih => ih) it

/-- Every result of a loop has the property that its body guarantees. -/
lemma forall_mem_repeatUntil (stop : List α → Bool) {P : β → Prop} (hP : ∀ it, P (p it).1)
    (it : List α) :
    ∀ b ∈ (repeatUntil stop p it).1, P b := by
  rw [repeatUntil]
  generalize it.length = n
  induction n generalizing it with
  | zero => simp [repeatBounded]
  | succ n ih =>
      rw [repeatBounded_succ]
      split
      · simp
      · intro b hb
        rcases List.mem_cons.1 hb with rfl | hb
        · exact hP it
        · exact ih _ b hb

/-- `Visits stop p it it'`: the loop started at `it` calls its body at `it'`. -/
inductive Visits (stop : List α → Bool) (p : Reader α β) : List α → List α → Prop
  | here {it : List α} (hs : stop it = false) : Visits stop p it it
  | next {it it' : List α} (hs : stop it = false) (h : Visits stop p (p it).2 it') :
      Visits stop p it it'

lemma Visits.suffix (hp : p.Forward) {it it' : List α} (h : Visits stop p it it') : it' <:+ it := by
  induction h with
  | here hs => exact List.suffix_rfl
  | next hs h ih => exact ih.trans (hp _)

/-- The results of a loop are those of its body at the cursors that are visited. -/
lemma mem_repeatUntil_iff (hstop : stop [] = true) (hp : p.Advances) {b : β} {it : List α} :
    b ∈ (repeatUntil stop p it).1 ↔ ∃ it', Visits stop p it it' ∧ (p it').1 = b := by
  refine repeatUntil_induction (p := p)
    (motive := fun it r => b ∈ r.1 ↔ ∃ it', Visits stop p it it' ∧ (p it').1 = b)
    hstop hp ?_ ?_ it
  · intro it hs
    refine iff_of_false List.not_mem_nil ?_
    rintro ⟨it', hv, -⟩
    cases hv with
    | here hs' | next hs' => exact absurd (hs.symm.trans hs') (by simp)
  · intro it rs hs ih
    rw [List.mem_cons, ih]
    constructor
    · rintro (rfl | ⟨it', hv, hb⟩)
      · exact ⟨it, .here hs, rfl⟩
      · exact ⟨it', .next hs hv, hb⟩
    · rintro ⟨it', hv, hb⟩
      cases hv with
      | here => exact Or.inl hb.symm
      | next _ hv => exact Or.inr ⟨it', hv, hb⟩

/-- The visit after which the loop stops gives its last result, and its cursor. -/
lemma repeatUntil_of_visits (hstop : stop [] = true) (hp : p.Advances) {it it' : List α}
    (hv : Visits stop p it it') (hs : stop (p it').2 = true) :
    (repeatUntil stop p it).1.getLast? = some (p it').1 ∧
      (repeatUntil stop p it).2 = (p it').2 := by
  induction hv with
  | here hst =>
      rw [repeatUntil_of_not_stop hstop hp hst, repeatUntil_of_stop hs]
      exact ⟨rfl, rfl⟩
  | next hst hv ih =>
      obtain ⟨hlast, hend⟩ := ih hs
      rw [repeatUntil_of_not_stop hstop hp hst, List.getLast?_cons, hlast]
      exact ⟨rfl, hend⟩

/-- A loop that does not stop at once has a last visit. -/
lemma exists_last_visit (hstop : stop [] = true) (hp : p.Advances) {it : List α}
    (hs : stop it = false) : ∃ it', Visits stop p it it' ∧ stop (p it').2 = true := by
  have hall : stop it = false → ∃ it', Visits stop p it it' ∧ stop (p it').2 = true := by
    refine repeatUntil_induction (p := p)
      (motive := fun it _ => stop it = false → ∃ it', Visits stop p it it' ∧ stop (p it').2 = true)
      hstop hp ?_ ?_ it
    · exact fun it hs hs' => absurd (hs.symm.trans hs') (by simp)
    · intro it _ hs ih _
      cases hnext : stop (p it).2 with
      | true => exact ⟨it, .here hs, hnext⟩
      | false =>
          obtain ⟨it', hv, hlast⟩ := ih hnext
          exact ⟨it', .next hs hv, hlast⟩
  exact hall hs

/-- Two loops run in step when their bodies do at every cursor that is visited. -/
lemma repeatUntil_map {stop' : List γ → Bool} {δ : Type*} {p' : Reader γ δ} (f : α → γ)
    (g : β → δ) (hstop : stop [] = true) (hp : p.Advances) (hstop' : stop' [] = true)
    (hp' : p'.Advances) (hs : ∀ it, stop' (it.map f) = stop it) (it : List α)
    (h : ∀ it', Visits stop p it it' → p' (it'.map f) = Prod.map g (List.map f) (p it')) :
    repeatUntil stop' p' (it.map f) =
      Prod.map (List.map g) (List.map f) (repeatUntil stop p it) := by
  revert h
  refine repeatUntil_induction (p := p)
    (motive := fun it rs => (∀ it', Visits stop p it it' →
      p' (it'.map f) = Prod.map g (List.map f) (p it')) →
      repeatUntil stop' p' (it.map f) = Prod.map (List.map g) (List.map f) rs)
    hstop hp ?_ ?_ it
  · intro it hst _
    rw [repeatUntil_of_stop (by rw [hs, hst])]
    rfl
  · intro it rs hst ih h
    have hhere := h it (.here hst)
    rw [repeatUntil_of_not_stop hstop' hp' (by rw [hs, hst]), hhere]
    simp only [Prod.map_fst, Prod.map_snd, ih fun it' hv => h it' (.next hst hv), List.map_cons,
      Prod.map_apply]

/-! ### Recursion on shorter inputs -/

/-- The recursion of `fix`, with a bound on its depth. -/
def fixBounded (F : Reader α β → Reader α β) (d : β) : ℕ → Reader α β
  | 0 => fun it => (d, it)
  | n + 1 => F (fixBounded F d n)

/-- The reader that `F` defines by recursion. -/
def fix (F : Reader α β → Reader α β) (d : β) : Reader α β :=
  fun it => fixBounded F d (it.length + 1) it

/-- The body of a recursion is local when it makes a reader that moves forward from
one that does, and looks at its argument on shorter inputs only. -/
structure Local (F : Reader α β → Reader α β) : Prop where
  forward : ∀ {p : Reader α β}, p.Forward → (F p).Forward
  congr : ∀ {p q : Reader α β}, p.Forward → q.Forward → ∀ it,
    (∀ it', it'.length < it.length → p it' = q it') → F p it = F q it

variable {F : Reader α β → Reader α β} {d : β}

lemma fixBounded_forward (hF : Local F) (n : ℕ) : (fixBounded F d n).Forward := by
  induction n with
  | zero => exact fun it => List.suffix_rfl
  | succ n ih => exact hF.forward ih

lemma fixBounded_of_length_lt (hF : Local F) {n m : ℕ} {it : List α} (hn : it.length < n)
    (hm : it.length < m) : fixBounded F d n it = fixBounded F d m it := by
  induction n generalizing m it with
  | zero => exact absurd hn (by omega)
  | succ n ih =>
      cases m with
      | zero => exact absurd hm (by omega)
      | succ m =>
          exact hF.congr (fixBounded_forward hF n) (fixBounded_forward hF m) it
            fun it' hlt => ih (by omega) (by omega)

lemma fix_forward (hF : Local F) : (fix F d).Forward :=
  fun it => fixBounded_forward hF (it.length + 1) it

/-- **The equation of a recursive reader.** -/
theorem fix_eq (hF : Local F) : fix F d = F (fix F d) := by
  funext it
  exact hF.congr (fixBounded_forward hF _) (fix_forward hF) it
    fun it' hlt => fixBounded_of_length_lt hF hlt (by omega)

/-- The body of a recursion goes down a measure when it looks at its argument only on suffixes of
the input that measure less. -/
structure Descends (μ : List α → ℕ) (F : Reader α β → Reader α β) : Prop where
  forward : ∀ {p : Reader α β}, p.Forward → (F p).Forward
  congr : ∀ {p q : Reader α β}, p.Forward → q.Forward → ∀ it,
    (∀ it', it' <:+ it → μ it' < μ it → p it' = q it') → F p it = F q it

/-- The depth of a recursion is bounded by the measure. -/
lemma fixBounded_of_measure_lt {μ : List α → ℕ} (hF : Descends μ F) {n m : ℕ} {it : List α}
    (hn : μ it < n) (hm : μ it < m) : fixBounded F d n it = fixBounded F d m it := by
  have hforward : ∀ n, (fixBounded F d n).Forward := by
    intro n
    induction n with
    | zero => exact fun it => List.suffix_rfl
    | succ n ih => exact hF.forward ih
  induction n generalizing m it with
  | zero => exact absurd hn (by omega)
  | succ n ih =>
      cases m with
      | zero => exact absurd hm (by omega)
      | succ m =>
          exact hF.congr (hforward n) (hforward m) it fun it' _ hlt => ih (by omega) (by omega)

/-- The induction rule for the results of a recursive reader. -/
lemma forall_fix {P : β → Prop} (hd : P d)
    (hF : ∀ p : Reader α β, (∀ it, P (p it).1) → ∀ it, P (F p it).1) (it : List α) :
    P (fix F d it).1 := by
  have hbound : ∀ n it, P (fixBounded F d n it).1 := by
    intro n
    induction n with
    | zero => exact fun _ => hd
    | succ n ih => exact hF _ ih
  exact hbound (it.length + 1) it

end Reader

end ICDump
