/-
The decoder comes to an end, and its output is linear in the length of the string.

Every node of the trees that `decode_type` makes, null pointers included, is paid for by a letter
of the string.  What is counted along the rules of `Recovery.lean` is the nodes of a part and the
letters that are left behind it.
-/
import Mathlib.Algebra.GroupWithZero.Nat
import Mathlib.Algebra.Order.BigOperators.Group.List
import Mathlib.Algebra.Order.Group.Nat
import ICDump.Encoding.Accesses

namespace ICDump

namespace Ty

mutual

/-- The number of nodes of a tree, where a null pointer counts as a node. -/
def nodes : Ty → ℕ
  | pointer t => nodes t + 1
  | array _ t => nodes t + 1
  | struct _ as => nodesAttrs as + 1
  | union _ as => nodesAttrs as + 1
  | _ => 1

/-- `nodes` on the attributes. -/
def nodesAttrs : List (Str × Ty) → ℕ
  | [] => 0
  | (_, t) :: as => nodes t + nodesAttrs as

end

lemma nodesAttrs_eq (as : List AttrTy) : nodesAttrs as = (as.map fun a => a.2.nodes).sum := by
  induction as with
  | nil => rfl
  | cons a as ih => rw [nodesAttrs, ih, List.map_cons, List.sum_cons]

@[simp] lemma nodes_null : null.nodes = 1 := rfl

lemma nodes_pos (t : Ty) : 0 < t.nodes := by
  cases t <;> simp [nodes]

end Ty

/-! ### Nodes and letters -/

variable {it it' rest : Str} {p : Part} {c : Char} {t : Ty}

/-- A type without parts has as many nodes as letters at most. -/
lemma LeafAt.nodes_le (h : LeafAt c it t rest) : t.nodes + rest.length ≤ it.length + 1 := by
  have hlen : rest.length ≤ it.length := by
    have hsuf := processCode_forward process_forward c it
    rw [h.processCode_eq] at hsuf
    exact hsuf.length_le
  cases h with
  | voidPointer => simp only [Ty.nodes, List.length_cons]; omega
  | opaqueStruct => simp only [Ty.nodes, Ty.nodesAttrs]; omega
  | _ => simp only [Ty.nodes]; omega

/-- The loops over elements and fields: if every result is paid for, so are all of them. -/
lemma sum_nodes_le {β : Type} {R : Str → β → Str → Prop} {stop : Str → Bool} {g : β → Ty}
    {bs : List β} (hstop : stop [] = true)
    (hR : ∀ it b it', R it b it' → it ≠ [] → (g b).nodes + it'.length ≤ it.length)
    (h : Repeats R it stop bs it') :
    (bs.map fun b => (g b).nodes).sum + it'.length ≤ it.length := by
  induction h with
  | done hs => simp
  | @next it it' it'' stop b bs hs hb hrest ih =>
      have hne : it ≠ [] := by
        rintro rfl
        rw [hstop] at hs
        exact absurd hs (by simp)
      have hb := hR _ _ _ hb hne
      have ih := ih hstop
      rw [List.map_cons, List.sum_cons]
      omega

/-- The last of the elements is kept, or there is a null pointer instead. -/
lemma nodes_getLast?_le (ts : List Ty) :
    (ts.getLast?.getD .null).nodes ≤ (ts.map Ty.nodes).sum + 1 := by
  cases h : ts.getLast? with
  | none => simp
  | some t =>
      have hle := List.single_le_sum (fun _ _ => Nat.zero_le _) t.nodes
        (List.mem_map_of_mem (f := Ty.nodes) (List.mem_of_getLast? h))
      rw [Option.getD_some]
      omega

/-- What is known of a part: it is paid for, unless there was nothing left to read. -/
def Paid (it : Str) (p : Part) (rest : Str) : Prop :=
  (it = [] ∧ p.type = .null ∧ rest = []) ∨ p.type.nodes + rest.length ≤ it.length

/-- Where there is something to read, the part is paid for.  What is skipped in front of it, a name
or a qualifier, pays for the null pointer at the end of the string. -/
lemma Paid.le_of_ne (h : Paid it' p rest) (hle : it'.length ≤ it.length) (hne : it ≠ []) :
    p.type.nodes + rest.length ≤ it.length := by
  have hpos := List.length_pos_of_ne_nil hne
  rcases h with ⟨-, hnull, rfl⟩ | h
  · rw [hnull, Ty.nodes_null, List.length_nil]
    omega
  · omega

lemma Paid.pointer (h : Paid it p rest) :
    (Part.pointer p).type.nodes + rest.length ≤ it.length + 1 := by
  rw [Part.type]
  rcases h with ⟨rfl, hnull, rfl⟩ | h
  · simp [hnull, Ty.isNull]
  · split
    · have hpos := p.type.nodes_pos
      rw [Ty.nodes_null]
      omega
    · rw [Ty.nodes]
      omega

lemma Paid.array {ps : List Part} {dim : ℕ} {closed : Bool}
    (h : Repeats Paid it (atDelim ']') ps it') (hend : Closes ']' closed it' rest) :
    (Part.array dim closed ps).type.nodes + rest.length ≤ it.length + 1 := by
  have hsum := sum_nodes_le (g := Part.type) rfl (fun _ _ _ h hne => h.le_of_ne le_rfl hne) h
  have hlast := nodes_getLast?_le (ps.map Part.type)
  rw [List.map_map, Function.comp_def] at hlast
  rw [Part.type, Part.types_eq]
  cases hend with
  | toEnd =>
      rw [if_neg (by simp), Ty.nodes_null, List.length_nil]
      omega
  | closed rest =>
      -- where there is no element, the closing bracket pays for the null pointer
      rw [List.length_cons] at hsum
      rw [if_pos rfl, Ty.nodes]
      omega

lemma Paid.aggregate {tag : Aggregate} {name : Str} {fs : List (Str × Part)} {closed : Bool}
    (h : Repeats (FieldOf Paid) it (atDelim tag.closing) fs it')
    (hend : Closes tag.closing closed it' rest) :
    (Part.aggregate tag name closed fs).type.nodes + rest.length ≤ it.length + 1 := by
  have hfield : ∀ it (f : Str × Part) it', FieldOf Paid it f it' → it ≠ [] →
      f.2.type.nodes + it'.length ≤ it.length := fun it f it' h hne =>
    h.2.le_of_ne (readOptName_forward it).length_le hne
  have hsum := sum_nodes_le (g := fun f : Str × Part => f.2.type) rfl hfield h
  have hnodes : (tag.type name (fs.map fun f => (f.1, f.2.type))).nodes =
      (fs.map fun f => f.2.type.nodes).sum + 1 := by
    cases tag <;> simp [Aggregate.type, Ty.nodes, Ty.nodesAttrs_eq, Function.comp_def]
  rw [Part.type, Part.attributes_eq]
  cases hend with
  | toEnd =>
      rw [if_neg (by simp), Ty.nodes_null, List.length_nil]
      omega
  | closed rest =>
      rw [List.length_cons] at hsum
      rw [if_pos rfl, hnodes]
      omega

/-- **Nodes are paid for by letters.** -/
theorem Reads.paid (h : Reads it p rest) : Paid it p rest := by
  -- the letter that encodes the part pays for its root
  refine Reads.induct (P := Paid) ?_ ?_ ?_ ?_ ?_ ?_ h
  · intro it hc
    cases it with
    | nil => exact Or.inl ⟨rfl, rfl, rfl⟩
    | cons c it => exact Or.inr (by simp [Part.type])
  · intro it rest c hc _
    have hlt := length_lt_of_codeAt hc
    refine Or.inr ?_
    rw [Part.type, Ty.nodes_null]
    omega
  · intro it rest rest' c t hc hl
    have hlt := length_lt_of_codeAt hc
    have hle := hl.nodes_le
    refine Or.inr ?_
    rw [Part.type]
    omega
  · intro it rest rest' p hc _ ih
    exact Or.inr (ih.pointer.trans (length_lt_of_codeAt hc))
  · intro it rest it' rest' ps closed hc _ hloop hend
    have hlt := length_lt_of_codeAt hc
    have hnum : (readStrNumber rest).2.length ≤ rest.length :=
      (readStrNumberFrom_forward [] rest).length_le
    exact Or.inr ((Paid.array hloop hend).trans (by omega))
  · intro it rest it' rest' tag fs closed hc _ hloop hend
    have hlt := length_lt_of_codeAt hc
    have hbody := (bodyAt_suffix rest).length_le
    exact Or.inr ((Paid.aggregate hloop hend).trans (by omega))

/-- The parts of a string have no more nodes than the string has letters. -/
lemma Splits.nodes_le {s : Str} {ps : List Part} (h : Splits s ps) :
    (ps.map fun p => p.type.nodes).sum ≤ s.length := by
  have hstep : ∀ it p it', Reads (processSpecifier it).2 p it' → it ≠ [] →
      p.type.nodes + it'.length ≤ it.length := fun it p it' h hne =>
    h.paid.le_of_ne (processSpecifier_forward it).length_le hne
  simpa using sum_nodes_le (g := Part.type) List.isEmpty_nil hstep h

/-! ### Termination -/

/-- A call of `process` before the end of the string returns behind where it started, and not
behind the end, when its bound is larger than what is left. -/
lemma process_returns {s : Str} {pos n : ℕ} (hpos : pos < s.length) (hn : s.length - pos < n)
    (log : List Access) : ∃ t it, IterM.process s n ⟨pos, log⟩ = (some t, it) ∧
      pos < it.pos ∧ it.pos ≤ s.length := by
  have hlen : (s.drop pos).length = s.length - pos := List.length_drop
  obtain ⟨p, rest, h⟩ := exists_reads (s.drop pos)
  obtain ⟨-, hrun⟩ := Yields.process n _ p rest (hlen ▸ hn) h (List.drop_suffix pos s)
  obtain ⟨l, hl, -⟩ := hrun log
  have hlt := h.length_lt (List.ne_nil_of_length_pos (by omega))
  rw [cursorAt, hlen, Nat.sub_sub_self hpos.le] at hl
  exact ⟨p.type, _, hl, by simp only [cursorAt]; omega, Nat.sub_le _ _⟩

/-- **The decoder comes to an end, and its output is linear.** -/
theorem decodeType_progress (s : Str) :
    (∀ n, s.length < n → ∃ it, IterM.decodeType s n ⟨0, []⟩ = (some (decodeType s), it)) ∧
      (∀ pos n log, pos < s.length → s.length - pos < n →
        ∃ t it, IterM.process s n ⟨pos, log⟩ = (some t, it) ∧ pos < it.pos ∧ it.pos ≤ s.length) ∧
      ((decodeType s).map Ty.nodes).sum ≤ s.length := by
  obtain ⟨ps, h⟩ := exists_splits s
  refine ⟨fun n hn => ?_, fun pos n log hpos hn => process_returns hpos hn log, ?_⟩
  · obtain ⟨-, hrun⟩ := Yields.decodeType h hn List.suffix_rfl
    obtain ⟨l, hl, -⟩ := hrun []
    rw [cursorAt, Nat.sub_self] at hl
    exact ⟨_, hl⟩
  · have hsub : ((decodeType s).map Ty.nodes).Sublist ((ps.map Part.type).map Ty.nodes) := by
      rw [h.decodeType_eq]
      exact List.filter_sublist.map _
    have hle := hsub.sum_le_sum fun _ _ => Nat.zero_le _
    rw [List.map_map] at hle
    exact hle.trans h.nodes_le

end ICDump
