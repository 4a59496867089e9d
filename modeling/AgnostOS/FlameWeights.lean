import AgnostOS.FlameRecords
import AgnostOS.Library.Subtree
import AgnostOS.ProfileRuns
import Mathlib.Algebra.BigOperators.Intervals
import Mathlib.Algebra.BigOperators.Ring.Finset
import Mathlib.Data.Int.Order.Basic

/-! From the nodes of a dump to the weighted call tree: linking, the cycle check, the
traversal, and the weights of whole subtrees. -/
namespace AgnostOS.FlameGraph
open Commands Profiling

structure Readable (p : Profiler) : Prop extends Writable p where
  rooted : p.tree.Rooted

section Passes
variable {p : Profiler}

abbrev table (p : Profiler) (g : Nat → FlameNode) : Nodes := Dict.table Nat.cast g p.nodeCount

/-! ### Linking -/

def linked (p : Profiler) (done : List Nat) (k : Nat) : FlameNode :=
  { flameNode p k with
    children := (done.filter fun i => (p.nodes i).parent = k).map Nat.cast }

theorem flameNode_of_pos {i : Nat} (hi : 0 < i) : flameNode p i =
    ⟨i, some (p.nodes i).parent, (p.nodes i).name, (p.nodes i).calls, (p.nodes i).calls, []⟩ :=
  if_neg hi.ne'

theorem link_eq (h : Readable p) {i : Nat} (hpos : 0 < i) (hi : i < p.nodeCount)
    (done : List Nat) :
    link (table p (linked p done)) (flameNode p i) =
      .ok (table p (linked p (done ++ [i]))) := by
  have hlt : (p.nodes i).parent < i := h.rooted.parent_lt i hpos hi
  have hparent : (p.nodes i).parent < p.nodeCount := hlt.trans hi
  have hupdate : Function.update (linked p done) (p.nodes i).parent
      { linked p done (p.nodes i).parent with
        children := (linked p done (p.nodes i).parent).children ++ [(i : Int)] } =
      linked p (done ++ [i]) := by
    funext k
    by_cases hk : k = (p.nodes i).parent
    · subst hk
      rw [Function.update_self]
      simp [linked]
    · rw [Function.update_of_ne hk]
      simp [linked, Ne.symm hk]
  rw [link, flameNode_of_pos hpos]
  simp only [Dict.get_table key_injective hparent, Dict.set_table_old key_injective hparent, hupdate]

theorem foldlM_link (h : Readable p) {todo : List Nat}
    (htodo : ∀ i ∈ todo, 0 < i ∧ i < p.nodeCount) (done : List Nat) :
    (todo.map (flameNode p)).foldlM link (table p (linked p done)) =
      .ok (table p (linked p (done ++ todo))) := by
  induction todo generalizing done with
  | nil =>
    rw [List.append_nil]
    rfl
  | cons i todo ih =>
    obtain ⟨⟨hpos, hi⟩, hrest⟩ := List.forall_mem_cons.mp htodo
    rw [List.map_cons, foldlM_cons_ok (link_eq h hpos hi done), ih hrest, List.append_assoc,
      List.singleton_append]

def linkedNode (p : Profiler) (k : Nat) : FlameNode :=
  { flameNode p k with children := (p.tree.children k).map Nat.cast }

theorem linked_all (h : Readable p) (k : Nat) :
    linked p (List.range' 1 (p.nodeCount - 1)) k = linkedNode p k := by
  have hrange : List.range p.nodeCount = 0 :: List.range' 1 (p.nodeCount - 1) := by
    obtain ⟨n, hn⟩ := Nat.exists_eq_succ_of_ne_zero h.count_pos.ne'
    rw [hn, List.range_eq_range', List.range'_succ]
    rfl
  have hchildren : p.tree.children k =
      (List.range' 1 (p.nodeCount - 1)).filter fun i => (p.nodes i).parent = k := by
    rw [LabelTree.children, Profiler.tree_count, hrange, List.filter_cons_of_neg (by simp)]
    refine List.filter_congr fun i hi => ?_
    have hpos : 0 < i := (List.mem_range'_1.mp hi).1
    simp [hpos]
  rw [linked, linkedNode, hchildren]

theorem link_all (h : Readable p) :
    ((table p (flameNode p)).values.drop 1).foldlM link
      (table p (flameNode p)) =
      .ok (table p (linkedNode p)) := by
  have hdrop : (table p (flameNode p)).values.drop 1 =
      (List.range' 1 (p.nodeCount - 1)).map (flameNode p) := by
    rw [Dict.values_table, ← List.map_drop, List.range_eq_range', List.drop_range']
  have hstart : flameNode p = linked p [] := by
    funext k
    simp only [linked, flameNode]
    split <;> rfl
  have htodo : ∀ i ∈ List.range' 1 (p.nodeCount - 1), 0 < i ∧ i < p.nodeCount := by
    intro i hi
    have := List.mem_range'_1.mp hi
    omega
  have hlast : linked p (List.range' 1 (p.nodeCount - 1)) = linkedNode p := funext (linked_all h)
  have hfold := foldlM_link h htodo []
  rw [← hstart, List.nil_append] at hfold
  rw [hdrop, hfold, hlast]

/-! ### The cycle check -/

theorem linkedNode_parent {i : Nat} (hi : 0 < i) :
    (linkedNode p i).parent = some ((p.nodes i).parent : Int) := by
  rw [linkedNode, flameNode_of_pos hi]

/-- Walking up from a node never meets it again, since parents have smaller indices. -/
theorem climb_ends (h : Readable p) {validated : List Int} (hroot : 0 ∈ validated) {i fuel : Nat}
    {chain : List Int} (hi : i < p.nodeCount) (hfuel : i < fuel)
    (hchain : ∀ id ∈ chain, (i : Int) < id) :
    ∃ result, Loop.iterate (climb (table p (linkedNode p)) validated) fuel
      (chain, (i : Int)) = some (.ok result) := by
  induction fuel generalizing i chain with
  | zero => exact absurd hfuel (Nat.not_lt_zero i)
  | succ fuel ih =>
    by_cases hvalid : (i : Int) ∈ validated
    · exact ⟨chain, Loop.iterate_of_inl (by rw [climb, if_pos hvalid]) fuel⟩
    · have hpos : 0 < i := Nat.pos_of_ne_zero fun hzero => hvalid (hzero ▸ hroot)
      have hlt : (p.nodes i).parent < i := h.rooted.parent_lt i hpos hi
      have hnew : (i : Int) ∉ chain := fun hin => lt_irrefl _ (hchain _ hin)
      have hstep : climb (table p (linkedNode p)) validated (chain, (i : Int)) =
          .inr (chain ++ [(i : Int)], ((p.nodes i).parent : Int)) := by
        rw [climb, if_neg hvalid, if_neg hnew, Dict.get_table key_injective hi, Option.bind_some,
          linkedNode_parent hpos]
      rw [Loop.iterate_of_inr hstep]
      refine ih (hlt.trans hi) (by omega) fun id hid => ?_
      cases List.mem_append.mp hid with
      | inl hid =>
        have := hchain id hid
        omega
      | inr hid =>
        rw [List.mem_singleton.mp hid]
        omega

theorem validate_ok (h : Readable p) {validated : List Int} (hroot : 0 ∈ validated) {i : Nat}
    (hi : i < p.nodeCount) : ∃ result,
      validate (table p (linkedNode p)) validated i = .ok result ∧
        0 ∈ result := by
  rw [validate]
  split
  · exact ⟨validated, rfl, hroot⟩
  · obtain ⟨chain, hchain⟩ := climb_ends h hroot hi (hi.trans (Nat.lt_succ_self _))
      (List.forall_mem_nil _)
    rw [Dict.length_table, hchain]
    exact ⟨validated ++ chain, rfl, List.mem_append_left _ hroot⟩

theorem validate_all (h : Readable p) : ∃ result,
    (table p (linkedNode p)).keys.foldlM
      (validate (table p (linkedNode p))) [0] = .ok result := by
  have hall : ∀ (ids : List Nat) (validated : List Int), (∀ i ∈ ids, i < p.nodeCount) →
      0 ∈ validated → ∃ result, (ids.map Nat.cast).foldlM
        (validate (table p (linkedNode p))) validated = .ok result := by
    intro ids
    induction ids with
    | nil => exact fun validated _ _ => ⟨validated, rfl⟩
    | cons i ids ih =>
      intro validated hids hroot
      obtain ⟨hi, hrest⟩ := List.forall_mem_cons.mp hids
      obtain ⟨next, hnext, hzero⟩ := validate_ok h hroot hi
      rw [List.map_cons, foldlM_cons_ok hnext]
      exact ih next hrest hzero
  rw [Dict.keys_table]
  exact hall _ _ (fun i hi => List.mem_range.mp hi) (by simp)

/-! ### The traversal -/

theorem linkedNode_children (k : Nat) :
    (linkedNode p k).children = (p.tree.children k).map Nat.cast := rfl

/-- The reader visits the nodes of the tree, each after its parent. -/
theorem traverse_all (h : Readable p) : ∃ order,
    traverse (table p (linkedNode p)) = .ok (order.map Nat.cast) ∧
      p.tree.Topological order := by
  obtain ⟨order, horder, htopological⟩ := h.rooted.exists_order
  refine ⟨order, ?_, htopological⟩
  have hkeep : ∀ s next : List Nat × List Nat, p.tree.Visiting s.1 s.2 →
      p.tree.visit s = .inr next → p.tree.Visiting next.1 next.2 := by
    rintro ⟨visited, pending⟩ next hin hnext
    rcases List.eq_nil_or_concat' pending with rfl | ⟨pending, i, rfl⟩
    · simp [LabelTree.visit] at hnext
    · simp only [LabelTree.visit, List.getLast?_concat, List.dropLast_concat, Sum.inr.injEq] at hnext
      subst hnext
      exact hin.step h.rooted
  have hbody : ∀ s : List Nat × List Nat, p.tree.Visiting s.1 s.2 →
      visit (table p (linkedNode p))
        (s.1.map Nat.cast, s.2.map Nat.cast) =
      (p.tree.visit s).map (fun order => .ok (order.map Nat.cast))
        fun next => (next.1.map Nat.cast, next.2.map Nat.cast) := by
    rintro ⟨visited, pending⟩ hin
    rcases List.eq_nil_or_concat' pending with rfl | ⟨pending, i, rfl⟩
    · rfl
    · have hi : i < p.nodeCount := hin.lt i (by simp)
      simp [visit, LabelTree.visit, Dict.get_table key_injective hi, linkedNode_children]
  have hloop := Loop.iterate_map (s := (([], [0]) : List Nat × List Nat)) hkeep hbody
    h.rooted.visiting (p.tree.count + 1)
  rw [horder] at hloop
  have hloop' : Loop.iterate (visit (table p (linkedNode p))) (p.nodeCount + 1) ([], [0]) =
      some (.ok (order.map Nat.cast)) := hloop
  rw [traverse, Dict.length_table, hloop']

/-! ### Weights -/

noncomputable def subtreeCalls (p : Profiler) (k : Nat) : Int :=
  ∑ j ∈ p.tree.subtree k, (flameNode p j).calls

def weighed (p : Profiler) (w : Nat → Int) (k : Nat) : FlameNode :=
  { linkedNode p k with weight := w k }

theorem mapM_weight {w : Nat → Int} {ids : List Nat} (hids : ∀ i ∈ ids, i < p.nodeCount) :
    (ids.map Nat.cast).mapM (fun child => ((table p (weighed p w)).get child).map FlameNode.weight) =
      some (ids.map w) := by
  induction ids with
  | nil => rfl
  | cons i ids ih =>
    obtain ⟨hi, hrest⟩ := List.forall_mem_cons.mp hids
    rw [List.map_cons, List.mapM_cons, ih hrest, Dict.get_table key_injective hi]
    rfl

/-- A node whose children have their weights gets its own. -/
theorem weigh_eq (h : Readable p) {w : Nat → Int} {i : Nat} (hi : i < p.nodeCount)
    (hchildren : ∀ k, p.tree.Child i k → w k = subtreeCalls p k) :
    weigh (table p (weighed p w)) i =
      .ok (table p (weighed p (Function.update w i (subtreeCalls p i)))) := by
  have hweights : (p.tree.children i).map w = (p.tree.children i).map (subtreeCalls p) :=
    List.map_congr_left fun k hk => hchildren k (LabelTree.mem_children.mp hk)
  have hsum : (flameNode p i).calls + ((p.tree.children i).map w).sum = subtreeCalls p i := by
    rw [hweights]
    exact (h.rooted.sum_subtree hi fun j => (flameNode p j).calls).symm
  have hnode : (weighed p w i).children = (p.tree.children i).map Nat.cast := rfl
  have hupdate : Function.update (weighed p w) i
      { weighed p w i with weight := (weighed p w i).calls + ((p.tree.children i).map w).sum } =
      weighed p (Function.update w i (subtreeCalls p i)) := by
    funext k
    by_cases hk : k = i
    · subst hk
      rw [Function.update_self, weighed, weighed, Function.update_self, ← hsum]
      rfl
    · rw [Function.update_of_ne hk, weighed, weighed, Function.update_of_ne hk]
  have hbound : ∀ k ∈ p.tree.children i, k < p.nodeCount :=
    fun k hk => (LabelTree.mem_children.mp hk).2.1
  have hmap := mapM_weight (w := w) hbound
  rw [weigh, Dict.get_table key_injective hi]
  simp only [hnode, hmap, Dict.set_table_old key_injective hi]
  exact congrArg (fun g => Except.ok (table p g)) hupdate

/-- Children come first in the reversed order, so every weight is the sum over the subtree. -/
theorem foldlM_weigh (h : Readable p) {order : List Nat} (ho : p.tree.Topological order)
    {done todo : List Nat} (hsplit : order.reverse = done ++ todo) {w : Nat → Int}
    (hdone : ∀ k ∈ done, w k = subtreeCalls p k) :
    ∃ w', (todo.map Nat.cast).foldlM weigh (table p (weighed p w)) =
      .ok (table p (weighed p w')) ∧ ∀ k ∈ done ++ todo, w' k = subtreeCalls p k := by
  induction todo generalizing done w with
  | nil => exact ⟨w, rfl, by simpa using hdone⟩
  | cons i todo ih =>
    have hi : i < p.nodeCount := (ho.mem_iff i).mp (List.mem_reverse.mp (by simp [hsplit]))
    have hweigh := weigh_eq h hi fun k hchild => hdone k (ho.children_done hsplit hchild)
    have hnext : ∀ k ∈ done ++ [i], Function.update w i (subtreeCalls p i) k = subtreeCalls p k := by
      intro k hk
      by_cases hki : k = i
      · rw [hki, Function.update_self]
      · rw [Function.update_of_ne hki]
        exact hdone k ((List.mem_append.mp hk).resolve_right (by simpa using hki))
    obtain ⟨w', hfold, hall⟩ := ih (by rw [hsplit, List.append_assoc, List.singleton_append]) hnext
    rw [List.map_cons, foldlM_cons_ok hweigh]
    refine ⟨w', hfold, fun k hk => hall k ?_⟩
    rwa [List.append_assoc, List.singleton_append]

theorem weigh_all (h : Readable p) {order : List Nat} (ho : p.tree.Topological order) :
    (order.map (Nat.cast : Nat → Int)).reverse.foldlM weigh (table p (linkedNode p)) =
      .ok (table p (weighed p (subtreeCalls p))) := by
  have hstart : linkedNode p = weighed p fun k => (linkedNode p k).weight := rfl
  have hsplit : order.reverse = [] ++ order.reverse := (List.nil_append _).symm
  obtain ⟨w, hfold, hall⟩ := foldlM_weigh h ho hsplit
    (w := fun k => (linkedNode p k).weight) (List.forall_mem_nil _)
  have hsame : table p (weighed p w) = table p (weighed p (subtreeCalls p)) := by
    refine Dict.table_congr fun i hi => ?_
    rw [weighed, weighed, hall i (by simpa using (ho.mem_iff i).mpr hi)]
  rw [← List.map_reverse, hstart, hfold, hsame]

theorem render_lines (h : Readable p) {records dropped : List Text} (hlines : Lines p records dropped) :
    render (HEADER :: (records ++ (dropped ++ [FOOTER]))) =
      .ok (table p (weighed p (subtreeCalls p)), (p.droppedPaths : Int)) := by
  obtain ⟨validated, hvalidated⟩ := validate_all h
  obtain ⟨order, htraverse, ho⟩ := traverse_all h
  have hcomplete : ¬ (HEADER ∉ HEADER :: (records ++ (dropped ++ [FOOTER])) ∨
      FOOTER ∉ HEADER :: (records ++ (dropped ++ [FOOTER]))) := by
    simp
  rw [render, if_neg hcomplete, hlines.read_eq h.count_pos]
  simp only [bind, Except.bind, link_all h, hvalidated, htraverse, weigh_all h ho]
  rfl

end Passes

/-! ### Every call tree -/

def withCounts (p : Profiler) (calls : Nat → Nat) (droppedPaths : Nat) : Profiler :=
  { p with
    nodes := fun i => { p.nodes i with calls := calls i }
    droppedPaths := droppedPaths }

structure Rebuilt (p : Profiler) (graph : Nodes) : Prop where
  ids : graph.keys = (List.range p.nodeCount).map Nat.cast
  nodes : ∀ i, 0 < i → i < p.nodeCount → ∃ node, graph.get i = some node ∧
    node.id = i ∧ node.parent = some ((p.nodes i).parent : Int) ∧ node.name = (p.nodes i).name ∧
    node.calls = (p.nodes i).calls ∧ node.children = (p.tree.children i).map Nat.cast ∧
    node.weight = ∑ j ∈ p.tree.subtree i, ((p.nodes j).calls : Int)
  root : ∃ node, graph.get 0 = some node ∧ node.id = 0 ∧ node.parent = none ∧
    node.children = (p.tree.children 0).map Nat.cast ∧
    node.weight = ∑ i ∈ Finset.Ico 1 p.nodeCount, ((p.nodes i).calls : Int)

section Inverse
variable {p : Profiler}

theorem sum_subtree_of_pos (h : Readable p) {i : Nat} (hi : 0 < i) :
    subtreeCalls p i = ∑ j ∈ p.tree.subtree i, ((p.nodes j).calls : Int) := by
  refine Finset.sum_congr rfl fun j hj => ?_
  have hle := h.rooted.le_of_below (LabelTree.mem_subtree.mp hj).2
  rw [flameNode_of_pos (hi.trans_le hle)]

theorem sum_root (h : Readable p) :
    subtreeCalls p 0 = ∑ i ∈ Finset.Ico 1 p.nodeCount, ((p.nodes i).calls : Int) := by
  have hroot : (flameNode p 0).calls = 0 := rfl
  rw [subtreeCalls, h.rooted.subtree_root, Profiler.tree_count, Finset.range_eq_Ico,
    Finset.sum_eq_sum_Ico_succ_bot h.count_pos, hroot, zero_add]
  refine Finset.sum_congr rfl fun i hi => ?_
  rw [flameNode_of_pos (Finset.mem_Ico.mp hi).1]

theorem rebuilt (h : Readable p) : Rebuilt p (table p (weighed p (subtreeCalls p))) where
  ids := Dict.keys_table ..
  nodes := by
    intro i hpos hi
    refine ⟨_, Dict.get_table key_injective hi, ?_⟩
    have hweight := sum_subtree_of_pos h hpos
    simp only [weighed, linkedNode, flameNode_of_pos hpos, hweight, and_self]
  root := by
    refine ⟨_, Dict.get_table key_injective h.count_pos, rfl, rfl, rfl, ?_⟩
    exact sum_root h

end Inverse

theorem readable_of_reached {p : Profiler} {guards : List ProfileGuard} (h : Reached p guards)
    (hnames : ∀ i, 0 < i → i < p.nodeCount → ∀ c ∈ (p.nodes i).name, isLineBreak c = false)
    {calls : Nat → Nat} (hcalls : ∀ i, calls i < 2 ^ 64) {droppedPaths : Nat}
    (hdropped : droppedPaths < 2 ^ 64) : Readable (withCounts p calls droppedPaths) where
  count_pos := h.sound.tree.rooted.count_pos
  count_le := h.sound.tree.count_le
  parent := by
    intro i hpos hi
    have hlt : (p.nodes i).parent < i := h.sound.tree.rooted.parent_lt i hpos hi
    have hle := h.sound.tree.count_le
    have hi' : i < p.nodeCount := hi
    have hparent : (p.nodes i).parent < 2 ^ 64 := by
      simp only [NODE_CAPACITY] at hle
      omega
    exact hparent
  calls := fun i _ _ => hcalls i
  names := hnames
  dropped := hdropped
  rooted := h.sound.tree.rooted

/-- The reader inverts the dump. -/
theorem render_dump {p : Profiler} {guards : List ProfileGuard} (h : Reached p guards)
    (hnames : ∀ i, 0 < i → i < p.nodeCount → ∀ c ∈ (p.nodes i).name, isLineBreak c = false)
    {calls : Nat → Nat} (hcalls : ∀ i, calls i < 2 ^ 64) {droppedPaths : Nat}
    (hdropped : droppedPaths < 2 ^ 64) :
    ∃ bytes lines graph,
      (withCounts p calls droppedPaths).dump =
        some (bytes, { withCounts p calls droppedPaths with recording := false }) ∧
      readTrace bytes = some lines ∧ render lines = .ok (graph, (droppedPaths : Int)) ∧
      Rebuilt (withCounts p calls droppedPaths) graph := by
  have hreadable := readable_of_reached h hnames hcalls hdropped
  obtain ⟨records, dropped, hlines⟩ := hreadable.exists_lines
  obtain ⟨bytes, hdump, hread⟩ := hlines.readTrace_eq
  exact ⟨bytes, _, _, hdump, hread, render_lines hreadable hlines, rebuilt hreadable⟩

/-- A call inside another, whose name has a space, with the largest counts. -/
theorem nested_calls_rendered : ∃ outer inner,
    Profiler.initial.enter ['a'] = some outer ∧ outer.2.enter ['b', ' ', 'c'] = some inner ∧
    ∃ bytes lines graph,
      (withCounts inner.2 (fun _ => 2 ^ 64 - 1) 3).dump =
        some (bytes, { withCounts inner.2 (fun _ => 2 ^ 64 - 1) 3 with recording := false }) ∧
      readTrace bytes = some lines ∧ render lines = .ok (graph, ((3 : Nat) : Int)) ∧
      Rebuilt (withCounts inner.2 (fun _ => 2 ^ 64 - 1) 3) graph := by
  refine ⟨_, _, rfl, rfl, render_dump (.enter (.enter .initial rfl) rfl) ?_ (by simp) (by simp)⟩
  intro i hpos hi
  have hcases : i = 1 ∨ i = 2 := by
    have hlt : i < 3 := hi
    omega
  cases hcases with
  | inl heq =>
    subst heq
    exact flat_of_all (by decide)
  | inr heq =>
    subst heq
    exact flat_of_all (by decide)

end AgnostOS.FlameGraph
