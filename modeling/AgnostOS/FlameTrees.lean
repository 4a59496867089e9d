import AgnostOS.FlameRecords
import AgnostOS.Library.ParentLinks

/-! The flame-graph reader on records that need not come from a profile: it takes exactly those
that make a tree under node 0. -/
namespace AgnostOS.FlameGraph
open Commands

def graph (nodes : Nodes) : Except Failure Nodes := do
  let nodes ← (nodes.values.drop 1).foldlM link nodes
  let _ ← nodes.keys.foldlM (validate nodes) [0]
  let order ← traverse nodes
  order.reverse.foldlM weigh nodes

theorem render_eq (lines : List Text) :
    render lines =
      if "AGNOSTOS_PROFILE_V2".toList ∉ lines ∨ "AGNOSTOS_PROFILE_END".toList ∉ lines then
        .error .incomplete
      else (lines.foldlM readLine ([(0, rootNode)], 0)).bind fun (nodes, dropped) =>
        (graph nodes).map fun nodes => (nodes, dropped) := by
  rw [render]
  split_ifs with hmarkers
  · rfl
  · congr 1
    funext (nodes, dropped)
    simp only [graph]
    cases (nodes.values.drop 1).foldlM link nodes with
    | error failure => rfl
    | ok nodes =>
      simp only [bind, Except.bind]
      cases nodes.keys.foldlM (validate nodes) [0] with
      | error failure => rfl
      | ok validated =>
        cases traverse nodes with
        | error failure => rfl
        | ok order => cases order.reverse.foldlM weigh nodes <;> rfl

/-! ### Records -/

structure Record where
  id : Int
  parent : Int
  calls : Int
  name : Text

def Record.node (record : Record) : FlameNode :=
  ⟨record.id, some record.parent, record.name, record.calls, record.calls, []⟩

def recorded (records : List Record) : Nodes :=
  records.foldl (fun nodes record => nodes.set record.id record.node) [(0, rootNode)]

theorem parseRecord_node {line : Text} {node : FlameNode} (h : parseRecord line = some node) :
    ∃ record : Record, node = record.node := by
  rw [parseRecord] at h
  split at h
  · split at h
    · next id parent calls _ _ _ =>
      exact ⟨⟨id, parent, calls, _⟩, (Option.some.inj h).symm⟩
    · cases h
  · cases h

/-- The nodes read from a trace are those of its records. -/
theorem recorded_of_read {lines : List Text} (records : List Record) {nodes : Nodes}
    {dropped dropped' : Int}
    (h : lines.foldlM readLine (recorded records, dropped) = .ok (nodes, dropped')) :
    ∃ more, nodes = recorded (records ++ more) := by
  induction lines generalizing records dropped with
  | nil =>
    obtain ⟨rfl, -⟩ := Prod.mk.inj (Except.ok.inj h)
    exact ⟨[], by rw [List.append_nil]⟩
  | cons line lines ih =>
    rw [List.foldlM_cons] at h
    cases hread : readLine (recorded records, dropped) line with
    | error failure =>
      rw [hread] at h
      cases h
    | ok state =>
      rw [hread] at h
      have hstate : ∃ more, state.1 = recorded (records ++ more) := by
        rw [readLine] at hread
        split_ifs at hread
        · split at hread
          · cases hread
          · next node hnode =>
            obtain ⟨record, rfl⟩ := parseRecord_node hnode
            refine ⟨[record], ?_⟩
            rw [← Except.ok.inj hread, recorded, recorded, List.foldl_append]
            rfl
        · split at hread
          · cases hread
          · rw [← Except.ok.inj hread]
            exact ⟨[], by rw [List.append_nil]⟩
        · rw [← Except.ok.inj hread]
          exact ⟨[], by rw [List.append_nil]⟩
      obtain ⟨first, hfirst⟩ := hstate
      obtain ⟨nodes', dropped⟩ := state
      subst hfirst
      obtain ⟨more, hmore⟩ := ih _ h
      exact ⟨first ++ more, by rw [hmore, List.append_assoc]⟩

structure IsEntry (k : Int) (node : FlameNode) : Prop where
  id : node.id = k
  children : node.children = []
  parent : k ≠ 0 → ∃ p, node.parent = some p

theorem Record.isEntry (record : Record) : IsEntry record.id record.node :=
  ⟨rfl, rfl, fun _ => ⟨record.parent, rfl⟩⟩

structure Entries (nodes : Nodes) (keys : List Int) (g : Int → FlameNode) : Prop where
  eq : nodes = Dict.onKeys keys g
  nodup : keys.Nodup
  first : ∃ rest, keys = 0 :: rest
  entry : ∀ k ∈ keys, IsEntry k (g k)

section Entries
variable {nodes : Nodes} {keys : List Int} {g : Int → FlameNode}

theorem entries_root : Entries [(0, rootNode)] [0] fun _ => rootNode where
  eq := rfl
  nodup := List.nodup_singleton 0
  first := ⟨[], rfl⟩
  entry := by
    intro k hk
    obtain rfl := List.mem_singleton.mp hk
    exact ⟨rfl, rfl, fun hne => absurd rfl hne⟩

theorem Entries.set (h : Entries nodes keys g) (record : Record) :
    ∃ keys', Entries (nodes.set record.id record.node) keys'
      (Function.update g record.id record.node) := by
  have hentry : ∀ k, k ∈ keys ∨ k = record.id →
      IsEntry k (Function.update g record.id record.node k) := by
    intro k hk
    by_cases hrecord : k = record.id
    · rw [hrecord, Function.update_self]
      exact record.isEntry
    · rw [Function.update_of_ne hrecord]
      exact h.entry k (hk.resolve_right hrecord)
  obtain ⟨rest, hrest⟩ := h.first
  by_cases hin : record.id ∈ keys
  · refine ⟨keys, ?_, h.nodup, h.first, fun k hk => hentry k (.inl hk)⟩
    rw [h.eq, Dict.set_onKeys h.nodup hin]
  · refine ⟨keys ++ [record.id], ?_, ?_, ⟨rest ++ [record.id], ?_⟩, ?_⟩
    · rw [h.eq, Dict.set_onKeys_new hin]
    · exact List.nodup_append'.mpr ⟨h.nodup, List.nodup_singleton _, by simpa using hin⟩
    · rw [hrest, List.cons_append]
    · exact fun k hk => hentry k ((List.mem_append.mp hk).imp_right List.mem_singleton.mp)

theorem exists_entries (records : List Record) : ∃ keys g, Entries (recorded records) keys g := by
  induction records using List.reverseRecOn with
  | nil => exact ⟨[0], _, entries_root⟩
  | append_singleton records record ih =>
    obtain ⟨keys, g, h⟩ := ih
    obtain ⟨keys', h'⟩ := h.set record
    rw [recorded, List.foldl_append]
    exact ⟨keys', _, h'⟩

theorem Entries.keys_eq (h : Entries nodes keys g) : nodes.keys = keys := by
  rw [h.eq, Dict.keys_onKeys]

end Entries

def recordLinks (records : List Record) : ParentLinks Int where
  keys := (recorded records).keys
  root := 0
  link := fun id => ((recorded records).get id).bind FlameNode.parent
  nodup := by
    obtain ⟨keys, g, h⟩ := exists_entries records
    rw [h.keys_eq]
    exact h.nodup
  root_mem := by
    obtain ⟨keys, g, h⟩ := exists_entries records
    obtain ⟨rest, hrest⟩ := h.first
    rw [h.keys_eq, hrest]
    exact List.mem_cons_self

structure Describes (t : ParentLinks Int) (g : Int → FlameNode) : Prop where
  root : t.root = 0
  first : ∃ rest, t.keys = 0 :: rest
  link : ∀ k ∈ t.keys, t.link k = (g k).parent
  entry : ∀ k ∈ t.keys, IsEntry k (g k)

theorem exists_describes (records : List Record) :
    ∃ g, Describes (recordLinks records) g ∧
      recorded records = Dict.onKeys (recordLinks records).keys g := by
  obtain ⟨keys, g, h⟩ := exists_entries records
  have hkeys : (recordLinks records).keys = keys := h.keys_eq
  refine ⟨g, ⟨rfl, ?_, ?_, ?_⟩, ?_⟩
  · rw [hkeys]
    exact h.first
  · intro k hk
    rw [hkeys] at hk
    have hget : (recorded records).get k = some (g k) := by rw [h.eq, Dict.get_onKeys hk]
    have hlink : (recordLinks records).link k =
        ((recorded records).get k).bind FlameNode.parent := rfl
    rw [hlink, hget, Option.bind_some]
  · rw [hkeys]
    exact h.entry
  · rw [hkeys]
    exact h.eq

/-! ### The passes -/

section Passes
variable {t : ParentLinks Int} {g : Int → FlameNode}

def attached (g : Int → FlameNode) (done : List Int) (k : Int) : FlameNode :=
  { g k with children := done.filter fun i => (g i).parent = some k }

inductive Explained (t : ParentLinks Int) : Failure → Prop
  | missing {id key : Int} (hid : id ∈ t.keys) (hne : id ≠ t.root) (hlink : t.link id = some key)
      (hkey : key ∉ t.keys) : Explained t (.missingParent id (some key))
  | cycle {id k : Int} (hid : t.Child k id) (habove : t.Below id k) : Explained t (.cycle id)

theorem Explained.not_isTree {failure : Failure} (h : Explained t failure) : ¬ t.IsTree := by
  intro htree
  cases h with
  | missing hid hne hlink hkey =>
    obtain ⟨k, hchild, hup⟩ := (htree _ hid).exists_parent hne
    obtain rfl := Option.some.inj (hlink.symm.trans hchild.2.2)
    exact hkey hup.mem
  | cycle hchild habove => exact (htree _ hchild.1).not_below hchild habove

theorem link_attached (h : Describes t g) {i : Int} (hi : i ∈ t.keys) (hne : i ≠ 0)
    (done : List Int) :
    (∃ failure, link (Dict.onKeys t.keys (attached g done)) (g i) = .error failure ∧
      Explained t failure) ∨
    link (Dict.onKeys t.keys (attached g done)) (g i) =
      .ok (Dict.onKeys t.keys (attached g (done ++ [i]))) ∧ ∃ k ∈ t.keys, t.link i = some k := by
  have hentry := h.entry i hi
  have hlink := h.link i hi
  obtain ⟨p, hp⟩ := hentry.parent hne
  rw [link]
  simp only [hp, hentry.id]
  by_cases hin : p ∈ t.keys
  · right
    have hupdate : Function.update (attached g done) p
        { attached g done p with children := (attached g done p).children ++ [i] } =
        attached g (done ++ [i]) := by
      funext k
      by_cases hk : k = p
      · subst hk
        rw [Function.update_self]
        simp [attached, hp]
      · rw [Function.update_of_ne hk]
        simp [attached, hp, Ne.symm hk]
    simp only [Dict.get_onKeys hin, Dict.set_onKeys t.nodup hin, hupdate]
    exact ⟨trivial, p, hin, hlink.trans hp⟩
  · left
    simp only [Dict.get_onKeys_of_not_mem hin]
    exact ⟨_, rfl, .missing hi (h.root ▸ hne) (hlink.trans hp) hin⟩

theorem foldlM_attached (h : Describes t g) {todo : List Int}
    (htodo : ∀ i ∈ todo, i ∈ t.keys ∧ i ≠ 0) (done : List Int) :
    (∃ failure, (todo.map g).foldlM link (Dict.onKeys t.keys (attached g done)) = .error failure ∧
      Explained t failure) ∨
    (todo.map g).foldlM link (Dict.onKeys t.keys (attached g done)) =
      .ok (Dict.onKeys t.keys (attached g (done ++ todo))) ∧
      ∀ i ∈ todo, ∃ k ∈ t.keys, t.link i = some k := by
  induction todo generalizing done with
  | nil =>
    rw [List.append_nil]
    exact .inr ⟨rfl, by simp⟩
  | cons i todo ih =>
    obtain ⟨⟨hi, hne⟩, hrest⟩ := List.forall_mem_cons.mp htodo
    rw [List.map_cons, List.foldlM_cons]
    cases link_attached h hi hne done with
    | inl hfault =>
      obtain ⟨failure, hlink, hexplained⟩ := hfault
      rw [hlink]
      exact .inl ⟨failure, rfl, hexplained⟩
    | inr hok =>
      obtain ⟨hlink, hparent⟩ := hok
      rw [hlink]
      have hall := ih hrest (done ++ [i])
      rw [List.append_assoc, List.singleton_append] at hall
      exact hall.imp_right fun hok => ⟨hok.1, List.forall_mem_cons.mpr ⟨hparent, hok.2⟩⟩

def weighing (t : ParentLinks Int) (g : Int → FlameNode) (w : Int → Int) (k : Int) : FlameNode :=
  { g k with children := t.children k, weight := w k }

theorem attached_all (h : Describes t g) {rest : List Int} (hrest : t.keys = 0 :: rest) (k : Int) :
    attached g rest k = weighing t g (fun k => (g k).weight) k := by
  have hchildren : t.children k = rest.filter fun i => (g i).parent = some k := by
    rw [ParentLinks.children, hrest, List.filter_cons_of_neg (by simp [h.root])]
    refine List.filter_congr fun i hi => ?_
    have hnew : 0 ∉ rest := (List.nodup_cons.mp (hrest ▸ t.nodup)).1
    have hne : i ≠ 0 := fun heq => hnew (heq ▸ hi)
    have hlink := h.link i (by rw [hrest]; exact List.mem_cons_of_mem 0 hi)
    simp [h.root, hne, hlink]
  rw [attached, weighing, hchildren]

/-- Linking fails at a node whose parent is missing, and gives every node its children
otherwise. -/
theorem link_exact (h : Describes t g) :
    (∃ failure, ((Dict.onKeys t.keys g).values.drop 1).foldlM link (Dict.onKeys t.keys g) =
      .error failure ∧ Explained t failure) ∨
    ((Dict.onKeys t.keys g).values.drop 1).foldlM link (Dict.onKeys t.keys g) =
      .ok (Dict.onKeys t.keys (weighing t g fun k => (g k).weight)) ∧
      ∀ i ∈ t.keys, i ≠ t.root → ∃ k ∈ t.keys, t.link i = some k := by
  obtain ⟨rest, hrest⟩ := h.first
  have hnew : 0 ∉ rest := (List.nodup_cons.mp (hrest ▸ t.nodup)).1
  have htodo : ∀ i ∈ rest, i ∈ t.keys ∧ i ≠ 0 := by
    intro i hi
    rw [hrest]
    exact ⟨List.mem_cons_of_mem 0 hi, fun heq => hnew (heq ▸ hi)⟩
  have hdrop : (Dict.onKeys t.keys g).values.drop 1 = rest.map g := by
    rw [Dict.values_onKeys, hrest, List.map_cons, List.drop_one, List.tail_cons]
  have hstart : Dict.onKeys t.keys g = Dict.onKeys t.keys (attached g []) := by
    refine Dict.onKeys_congr fun k hk => ?_
    rw [attached, List.filter_nil, ← (h.entry k hk).children]
  have hlast : Dict.onKeys t.keys (attached g rest) =
      Dict.onKeys t.keys (weighing t g fun k => (g k).weight) :=
    Dict.onKeys_congr fun k _ => attached_all h hrest k
  rw [hdrop, hstart]
  refine (foldlM_attached h htodo []).imp_right fun hok => ?_
  rw [List.nil_append, hlast] at hok
  refine ⟨hok.1, fun i hi hne => hok.2 i ?_⟩
  rw [hrest] at hi
  exact (List.mem_cons.mp hi).resolve_left (h.root ▸ hne)

/-! ### The cycle check -/

structure Known (t : ParentLinks Int) (validated : List Int) : Prop where
  root : t.root ∈ validated
  reaches : ∀ i ∈ validated, t.Reaches i

theorem get_parent (h : Describes t g) (w : Int → Int) {k : Int} (hk : k ∈ t.keys) :
    ((Dict.onKeys t.keys (weighing t g w)).get k).bind FlameNode.parent = t.link k := by
  rw [Dict.get_onKeys hk, Option.bind_some, h.link k hk]
  rfl

theorem climb_exact (h : Describes t g) (w : Int → Int)
    (hlinked : ∀ i ∈ t.keys, i ≠ t.root → ∃ k ∈ t.keys, t.link i = some k)
    {validated : List Int} (hknown : Known t validated) {id : Int} (hid : id ∈ t.keys) :
    ∃ result, Loop.iterate (climb (Dict.onKeys t.keys (weighing t g w)) validated)
        (t.keys.length + 1) ([], id) = some result ∧
      ((∃ failure, result = .error failure ∧ Explained t failure) ∨
        ∃ chain, result = .ok chain ∧ (∀ i ∈ chain, t.Reaches i) ∧ t.Reaches id) := by
  refine Loop.iterate_ends (I := fun s => t.Climbing validated s.1 id s.2)
    (m := fun s => t.keys.length - s.1.length) ?_ ?_ (.begin hid) (by simp)
  · intro (chain, current) next hclimbing hnext
    rw [climb, get_parent h w hclimbing.mem] at hnext
    split_ifs at hnext with hvalid hchain
    obtain ⟨k, hk, hlink⟩ := hlinked current hclimbing.mem fun heq => hvalid (heq ▸ hknown.root)
    rw [hlink] at hnext
    obtain rfl := Sum.inr.inj hnext
    have hroom : chain.length < t.keys.length := hclimbing.length_lt hchain
    refine ⟨hclimbing.step hknown.root hvalid hchain hlink hk, ?_⟩
    simp only [List.length_append, List.length_singleton]
    omega
  · intro (chain, current) result hclimbing hexit
    rw [climb, get_parent h w hclimbing.mem] at hexit
    split_ifs at hexit with hvalid hchain
    · obtain rfl := Sum.inl.inj hexit
      exact .inr ⟨chain, rfl, hclimbing.reaches (hknown.reaches current hvalid)⟩
    · obtain rfl := Sum.inl.inj hexit
      obtain ⟨k, hchild, hbelow⟩ := hclimbing.exists_cycle hchain
      exact .inl ⟨_, rfl, .cycle hchild hbelow⟩
    · obtain ⟨k, hk, hlink⟩ := hlinked current hclimbing.mem fun heq => hvalid (heq ▸ hknown.root)
      rw [hlink] at hexit
      cases hexit

theorem validate_exact (h : Describes t g) (w : Int → Int)
    (hlinked : ∀ i ∈ t.keys, i ≠ t.root → ∃ k ∈ t.keys, t.link i = some k)
    {validated : List Int} (hknown : Known t validated) {id : Int} (hid : id ∈ t.keys) :
    (∃ failure, validate (Dict.onKeys t.keys (weighing t g w)) validated id = .error failure ∧
      Explained t failure) ∨
    ∃ next, validate (Dict.onKeys t.keys (weighing t g w)) validated id = .ok next ∧
      Known t next ∧ t.Reaches id := by
  rw [validate]
  by_cases hdone : id = 0 ∨ id ∈ validated
  · rw [if_pos hdone]
    refine .inr ⟨validated, rfl, hknown, ?_⟩
    cases hdone with
    | inl hzero =>
      rw [hzero, ← h.root]
      exact .root
    | inr hvalid => exact hknown.reaches id hvalid
  · rw [if_neg hdone, Dict.length_onKeys]
    obtain ⟨result, hloop, hresult⟩ := climb_exact h w hlinked hknown hid
    rw [hloop]
    cases hresult with
    | inl hfault =>
      obtain ⟨failure, rfl, hexplained⟩ := hfault
      exact .inl ⟨failure, rfl, hexplained⟩
    | inr hok =>
      obtain ⟨chain, rfl, hchain, hup⟩ := hok
      refine .inr ⟨validated ++ chain, rfl, ⟨List.mem_append_left _ hknown.root, ?_⟩, hup⟩
      intro i hi
      exact (List.mem_append.mp hi).elim (hknown.reaches i) (hchain i)

theorem foldlM_validate (h : Describes t g) (w : Int → Int)
    (hlinked : ∀ i ∈ t.keys, i ≠ t.root → ∃ k ∈ t.keys, t.link i = some k)
    {validated ids : List Int} (hknown : Known t validated) (hids : ∀ id ∈ ids, id ∈ t.keys) :
    (∃ failure, ids.foldlM (validate (Dict.onKeys t.keys (weighing t g w))) validated =
      .error failure ∧ Explained t failure) ∨
    ∃ last, ids.foldlM (validate (Dict.onKeys t.keys (weighing t g w))) validated = .ok last ∧
      ∀ id ∈ ids, t.Reaches id := by
  induction ids generalizing validated with
  | nil => exact .inr ⟨validated, rfl, by simp⟩
  | cons id ids ih =>
    obtain ⟨hid, hrest⟩ := List.forall_mem_cons.mp hids
    rw [List.foldlM_cons]
    cases validate_exact h w hlinked hknown hid with
    | inl hfault =>
      obtain ⟨failure, hvalidate, hexplained⟩ := hfault
      rw [hvalidate]
      exact .inl ⟨failure, rfl, hexplained⟩
    | inr hok =>
      obtain ⟨next, hvalidate, hnext, hup⟩ := hok
      rw [hvalidate]
      refine (ih hnext hrest).imp_right fun hall => ?_
      obtain ⟨last, hlast, hups⟩ := hall
      exact ⟨last, hlast, List.forall_mem_cons.mpr ⟨hup, hups⟩⟩

/-! ### Order and weights -/

theorem traverse_exact (h : Describes t g) (w : Int → Int) (htree : t.IsTree) :
    ∃ order, traverse (Dict.onKeys t.keys (weighing t g w)) = .ok order ∧ t.Topological order := by
  have hloop : ∃ result, Loop.iterate (visit (Dict.onKeys t.keys (weighing t g w)))
      (t.keys.length + 1) ([], [0]) = some result ∧
      ∃ order, result = .ok order ∧ t.Topological order := by
    refine Loop.iterate_ends (I := fun s => t.Visiting s.1 s.2)
      (m := fun s => t.keys.length - s.1.length) ?_ ?_ (h.root ▸ .begin t) (by simp)
    · intro (order, pending) next hvisiting hnext
      rcases List.eq_nil_or_concat' pending with rfl | ⟨pending, i, rfl⟩
      · simp [visit] at hnext
      · have hi : i ∈ t.keys := hvisiting.mem i (by simp)
        simp only [visit, List.getLast?_concat, Dict.get_onKeys hi, List.dropLast_concat,
          Sum.inr.injEq] at hnext
        subst hnext
        have hstep := hvisiting.step
        have hroom := hstep.length_le
        refine ⟨hstep, ?_⟩
        simp only [List.length_append, List.length_singleton] at hroom ⊢
        omega
    · intro (order, pending) result hvisiting hexit
      rcases List.eq_nil_or_concat' pending with rfl | ⟨pending, i, rfl⟩
      · obtain rfl := Sum.inl.inj hexit
        exact ⟨order, rfl, hvisiting.topological htree⟩
      · have hi : i ∈ t.keys := hvisiting.mem i (by simp)
        simp [visit, Dict.get_onKeys hi] at hexit
  obtain ⟨result, hiterate, order, rfl, horder⟩ := hloop
  refine ⟨order, ?_, horder⟩
  rw [traverse, Dict.length_onKeys, hiterate]

noncomputable def callsBelow (t : ParentLinks Int) (g : Int → FlameNode) (k : Int) : Int :=
  ∑ j ∈ t.subtree k, (g j).calls

theorem mapM_get {w : Int → Int} {ids : List Int} (hids : ∀ i ∈ ids, i ∈ t.keys) :
    ids.mapM (fun child => ((Dict.onKeys t.keys (weighing t g w)).get child).map FlameNode.weight) =
      some (ids.map w) := by
  induction ids with
  | nil => rfl
  | cons i ids ih =>
    obtain ⟨hi, hrest⟩ := List.forall_mem_cons.mp hids
    rw [List.mapM_cons, ih hrest, Dict.get_onKeys hi]
    rfl

theorem weigh_exact (htree : t.IsTree) {w : Int → Int} {i : Int} (hi : i ∈ t.keys)
    (hchildren : ∀ k, t.Child i k → w k = callsBelow t g k) :
    weigh (Dict.onKeys t.keys (weighing t g w)) i =
      .ok (Dict.onKeys t.keys (weighing t g (Function.update w i (callsBelow t g i)))) := by
  have hsum : (g i).calls + ((t.children i).map w).sum = callsBelow t g i := by
    rw [List.map_congr_left fun k hk => hchildren k (ParentLinks.mem_children.mp hk)]
    exact (htree.sum_subtree hi fun j => (g j).calls).symm
  have hmem : ∀ k ∈ t.children i, k ∈ t.keys := fun k hk => (ParentLinks.mem_children.mp hk).1
  have hmap := mapM_get (g := g) (w := w) hmem
  have hupdate : Function.update (weighing t g w) i
      { weighing t g w i with weight := (g i).calls + ((t.children i).map w).sum } =
      weighing t g (Function.update w i (callsBelow t g i)) := by
    funext k
    by_cases hk : k = i
    · subst hk
      rw [Function.update_self, hsum, weighing, weighing, Function.update_self]
    · rw [Function.update_of_ne hk, weighing, weighing, Function.update_of_ne hk]
  rw [weigh, Dict.get_onKeys hi]
  simp only [show (weighing t g w i).children = t.children i from rfl, hmap,
    Dict.set_onKeys t.nodup hi]
  exact congrArg (fun f => Except.ok (Dict.onKeys t.keys f)) hupdate

theorem foldlM_weigh_exact (htree : t.IsTree) {order : List Int} (ho : t.Topological order)
    {done todo : List Int} (hsplit : order.reverse = done ++ todo) {w : Int → Int}
    (hdone : ∀ k ∈ done, w k = callsBelow t g k) :
    ∃ w', todo.foldlM weigh (Dict.onKeys t.keys (weighing t g w)) =
      .ok (Dict.onKeys t.keys (weighing t g w')) ∧ ∀ k ∈ done ++ todo, w' k = callsBelow t g k := by
  induction todo generalizing done w with
  | nil => exact ⟨w, rfl, by simpa using hdone⟩
  | cons i todo ih =>
    have hi : i ∈ t.keys := (ho.mem_iff i).mp (List.mem_reverse.mp (by simp [hsplit]))
    have hweigh := weigh_exact htree hi fun k hchild =>
      hdone k (ho.children_done htree hsplit hchild)
    have hnext : ∀ k ∈ done ++ [i],
        Function.update w i (callsBelow t g i) k = callsBelow t g k := by
      intro k hk
      by_cases hki : k = i
      · rw [hki, Function.update_self]
      · rw [Function.update_of_ne hki]
        exact hdone k ((List.mem_append.mp hk).resolve_right (by simpa using hki))
    obtain ⟨w', hfold, hall⟩ := ih (by rw [hsplit, List.append_assoc, List.singleton_append]) hnext
    rw [foldlM_cons_ok hweigh]
    refine ⟨w', hfold, fun k hk => hall k ?_⟩
    rwa [List.append_assoc, List.singleton_append]

/-- All passes: a fault of the links, or every node with the calls of its subtree. -/
theorem graph_exact (h : Describes t g) :
    (∃ failure, graph (Dict.onKeys t.keys g) = .error failure ∧ Explained t failure) ∨
    t.IsTree ∧ graph (Dict.onKeys t.keys g) =
      .ok (Dict.onKeys t.keys (weighing t g (callsBelow t g))) := by
  rw [graph]
  cases link_exact h with
  | inl hfault =>
    obtain ⟨failure, hlink, hexplained⟩ := hfault
    rw [hlink]
    exact .inl ⟨failure, rfl, hexplained⟩
  | inr hok =>
    obtain ⟨hlink, hlinked⟩ := hok
    have hknown : Known t [0] := by
      rw [← h.root]
      exact ⟨List.mem_singleton_self _, fun i hi => List.mem_singleton.mp hi ▸ .root⟩
    rw [hlink]
    simp only [bind, Except.bind, Dict.keys_onKeys]
    cases foldlM_validate h (fun k => (g k).weight) hlinked hknown fun _ hid => hid with
    | inl hfault =>
      obtain ⟨failure, hvalidate, hexplained⟩ := hfault
      rw [hvalidate]
      exact .inl ⟨failure, rfl, hexplained⟩
    | inr hok =>
      obtain ⟨validated, hvalidate, htree⟩ := hok
      obtain ⟨order, htraverse, ho⟩ := traverse_exact h (fun k => (g k).weight) htree
      obtain ⟨w, hfold, hall⟩ := foldlM_weigh_exact htree ho (List.nil_append _).symm
        (w := fun k => (g k).weight) (List.forall_mem_nil _)
      rw [hvalidate]
      simp only [htraverse]
      refine .inr ⟨htree, hfold.trans (congrArg Except.ok (Dict.onKeys_congr fun k hk => ?_))⟩
      rw [weighing, weighing, hall k (by simpa using (ho.mem_iff k).mpr hk)]

end Passes

noncomputable def counted (records : List Record) : Nodes :=
  (recorded records).map fun (id, node) => (id,
    { node with
      children := (recordLinks records).children id
      weight := ∑ j ∈ (recordLinks records).subtree id,
        (((recorded records).get j).map FlameNode.calls).getD 0 })

theorem counted_eq {records : List Record} {g : Int → FlameNode}
    (h : recorded records = Dict.onKeys (recordLinks records).keys g) :
    counted records = Dict.onKeys (recordLinks records).keys
      (weighing (recordLinks records) g (callsBelow (recordLinks records) g)) := by
  have hcalls : ∀ k, callsBelow (recordLinks records) g k = ∑ j ∈ (recordLinks records).subtree k,
      (((recorded records).get j).map FlameNode.calls).getD 0 := by
    intro k
    refine Finset.sum_congr rfl fun j hj => ?_
    have hj' : j ∈ (recordLinks records).keys := (ParentLinks.mem_subtree.mp hj).1
    rw [h, Dict.get_onKeys hj']
    rfl
  rw [counted]
  simp only [← hcalls]
  rw [h, Dict.onKeys, Dict.onKeys, List.map_map]
  rfl

theorem total_calls {records : List Record} (htree : (recordLinks records).IsTree) :
    ((counted records).get 0).map FlameNode.weight =
      some ((recorded records).values.map FlameNode.calls).sum := by
  obtain ⟨g, -, hrecorded⟩ := exists_describes records
  have hroot : (0 : Int) ∈ (recordLinks records).keys := (recordLinks records).root_mem
  have hsum : callsBelow (recordLinks records) g 0 =
      ((recordLinks records).keys.map fun k => (g k).calls).sum := by
    have hall : (recordLinks records).subtree 0 = (recordLinks records).keys.toFinset :=
      htree.subtree_root
    rw [callsBelow, hall, List.sum_toFinset _ (recordLinks records).nodup]
  rw [counted_eq hrecorded, Dict.get_onKeys hroot, hrecorded, Dict.values_onKeys, List.map_map]
  exact congrArg some hsum

/-- The reader takes exactly the records that make a tree, and otherwise names a fault that they
have; it never stumbles over a missing key and never walks in a circle. -/
theorem graph_recorded (records : List Record) :
    ((recordLinks records).IsTree ∧ graph (recorded records) = .ok (counted records) ∧
      ((counted records).get 0).map FlameNode.weight =
        some ((recorded records).values.map FlameNode.calls).sum) ∨
    (¬ (recordLinks records).IsTree ∧ ∃ failure, graph (recorded records) = .error failure ∧
      Explained (recordLinks records) failure) := by
  obtain ⟨g, h, hrecorded⟩ := exists_describes records
  have hexact := graph_exact h
  rw [← hrecorded, ← counted_eq hrecorded] at hexact
  cases hexact with
  | inl hfault =>
    obtain ⟨failure, hgraph, hexplained⟩ := hfault
    exact .inr ⟨hexplained.not_isTree, failure, hgraph, hexplained⟩
  | inr hok =>
    obtain ⟨htree, hgraph⟩ := hok
    exact .inl ⟨htree, hgraph, total_calls htree⟩

/-- What `render` makes of a trace that it can read. -/
theorem render_recorded {lines : List Text} {nodes : Nodes} {dropped : Int}
    (hheader : "AGNOSTOS_PROFILE_V2".toList ∈ lines)
    (hfooter : "AGNOSTOS_PROFILE_END".toList ∈ lines)
    (hread : lines.foldlM readLine ([(0, rootNode)], 0) = .ok (nodes, dropped)) :
    ∃ records, nodes = recorded records ∧
      render lines = (graph (recorded records)).map fun graph => (graph, dropped) := by
  obtain ⟨records, rfl⟩ := recorded_of_read [] hread
  refine ⟨[] ++ records, rfl, ?_⟩
  rw [render_eq, if_neg (by simp only [hheader, hfooter, not_true, or_self, not_false_iff]), hread]
  rfl

/-- A node that is its own parent is a fault. -/
example : graph (recorded [⟨1, 1, 5, []⟩]) = .error (.cycle 1) := by decide

end AgnostOS.FlameGraph
