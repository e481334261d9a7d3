import CallLedger.Proofs.Directory
import CallLedger.Proofs.Pathwise
import CallLedger.Proofs.RoundTrip

/-!
# What an accepted dump becomes

A dump need not come from a session. It may list a method twice, or two siblings of one
method, and it is accepted as long as every node names a method that is listed and a parent
that comes before it.

The records of an accepted dump are those of the methods in the order of their first listings,
and each is what was listed first (`Registry.ofDump_first`); whatever else is listed of a method
is dropped. No node is dropped. The arena holds them in the order of the list, each under its
parent and bound to the record of its method (`Profile.Taken`), so every call path has the
measurements that the list has for it. What the walks meet is another matter, because siblings
of one method are filed in one place, where the later one takes the place of the earlier
(`Session.repeated_root_unmet`). Where there are none of these (`DumpedContext.Apart`) every node is
filed under its parent, and the walks meet all of them.
-/

namespace CallLedger

variable {α : Type}

/-! ## Listed paths -/

/-- The call paths of listed nodes, the root last. A node has the path of its parent, which is
listed before it, behind its own method. -/
def DumpedNode.paths (methodOf? : DumpedNode α → Option Method) (nodes : List (DumpedNode α)) :
    List (List Method) :=
  nodes.foldl
    (fun paths node => paths ++ [(methodOf? node).toList ++
      (node.parent.bind fun parent => paths[parent]?).getD []])
    []

namespace DumpedContext

/-- The method that a listed node is a call of. -/
def methodOf? (dumped : DumpedContext α) (node : DumpedNode α) : Option Method :=
  dumped.methods[node.method]?.map (·.method)

def paths (dumped : DumpedContext α) : List (List Method) :=
  DumpedNode.paths dumped.methodOf? dumped.nodes

/-- What is listed at a path. -/
def nodesAt (dumped : DumpedContext α) (path : List Method) : List (DumpedNode α) :=
  ((List.range dumped.nodes.length).filter fun i => dumped.paths[i]? = some path).filterMap
    (dumped.nodes[·]?)

/-- What is listed of the nodes without a parent. -/
def rootTotals (dumped : DumpedContext α) : List α :=
  (dumped.nodes.filter (·.parent = none)).map (·.measurement.totalTime)

/-- No two siblings, and no two nodes without a parent, are calls of one method. -/
def Apart (dumped : DumpedContext α) : Prop :=
  dumped.nodes.Pairwise fun a b =>
    ¬(a.parent = b.parent ∧ dumped.methodOf? a = dumped.methodOf? b)

/-- No two nodes under one parent, or without one, are calls of one method. -/
def ApartUnder (dumped : DumpedContext α) (parent : Option Nat) : Prop :=
  (dumped.nodes.filter (·.parent = parent)).Pairwise fun a b =>
    dumped.methodOf? a ≠ dumped.methodOf? b

theorem Apart.under {dumped : DumpedContext α} (h : dumped.Apart) (parent : Option Nat) :
    dumped.ApartUnder parent := by
  refine (h.filter _).imp_of_mem fun {a b} ha hb hne hsame => hne ⟨?_, hsame⟩
  exact (of_decide_eq_true (List.mem_filter.mp ha).2).trans
    (of_decide_eq_true (List.mem_filter.mp hb).2).symm

end DumpedContext

namespace DumpedNode

variable {methodOf? : DumpedNode α → Option Method}

theorem paths_concat (nodes : List (DumpedNode α)) (node : DumpedNode α) :
    paths methodOf? (nodes ++ [node]) =
      paths methodOf? nodes ++ [(methodOf? node).toList ++
        (node.parent.bind fun parent => (paths methodOf? nodes)[parent]?).getD []] := by
  unfold paths
  rw [List.foldl_append]
  rfl

theorem length_paths (nodes : List (DumpedNode α)) :
    (paths methodOf? nodes).length = nodes.length := by
  induction nodes using List.reverseRecOn with
  | nil => rfl
  | append_singleton nodes node ih =>
      rw [paths_concat, List.length_append, List.length_append, ih]
      rfl

theorem paths_getElem? {nodes : List (DumpedNode α)} : ∀ {i : Nat} {node : DumpedNode α},
    nodes[i]? = some node → (∀ p : Nat, node.parent = some p → p < i) →
    (paths methodOf? nodes)[i]? = some ((methodOf? node).toList ++
      (node.parent.bind fun parent => (paths methodOf? nodes)[parent]?).getD []) := by
  induction nodes using List.reverseRecOn with
  | nil => intro i node hi; cases hi
  | append_singleton nodes last ih =>
      intro i node hi hparent
      have hlt := (List.getElem?_eq_some_iff.mp hi).1
      rw [List.length_append, List.length_singleton] at hlt
      have hbefore : ∀ {j : Nat}, j < nodes.length →
          (paths methodOf? (nodes ++ [last]))[j]? = (paths methodOf? nodes)[j]? := by
        intro j hj
        rw [paths_concat, List.getElem?_append_left (by rwa [length_paths])]
      have hparents : (node.parent.bind fun parent =>
          (paths methodOf? (nodes ++ [last]))[parent]?) =
            node.parent.bind fun parent => (paths methodOf? nodes)[parent]? := by
        cases hp : node.parent with
        | none => rfl
        | some p => exact hbefore (by have := hparent p hp; omega)
      rw [hparents]
      rcases Nat.lt_succ_iff_lt_or_eq.mp hlt with hold | rfl
      · rw [List.getElem?_append_left hold] at hi
        rw [hbefore hold, ih hi hparent]
      · rw [List.getElem?_concat_length, Option.some.injEq] at hi
        rw [paths_concat, ← length_paths, List.getElem?_concat_length, hi]

end DumpedNode

/-! ## Roots -/

theorem filterMap_range_filter {β γ : Type} (items : List β) (p : β → Bool) (f : β → γ) :
    ((List.range items.length).filter fun i => items[i]?.any p).filterMap
      (fun i => items[i]?.map f) = (items.filter p).map f := by
  induction items using List.reverseRecOn with
  | nil => rfl
  | append_singleton items last ih =>
      have hbefore : ∀ i ∈ List.range items.length, (items ++ [last])[i]? = items[i]? :=
        fun i hi => List.getElem?_append_left (List.mem_range.mp hi)
      have hfilter : ((List.range items.length).filter fun i => (items ++ [last])[i]?.any p) =
          (List.range items.length).filter fun i => items[i]?.any p :=
        List.filter_congr fun i hi => by rw [hbefore i hi]
      have hmap : ((List.range items.length).filter fun i => items[i]?.any p).filterMap
          (fun i => (items ++ [last])[i]?.map f) = (items.filter p).map f := by
        rw [← ih]
        exact List.filterMap_congr fun i hi => by rw [hbefore i (List.mem_filter.mp hi).1]
      rw [List.length_append, List.length_singleton, List.range_succ, List.filter_append,
        List.filterMap_append, hfilter, hmap, List.filter_append, List.map_append]
      congr 1
      cases hp : p last with
      | true => simp [hp]
      | false => simp [hp]

/-- Where addition does not mind the order, neither does a sum. -/
theorem Amount.sum_perm [Amount α] (hassoc : ∀ a b c : α, a + b + c = a + (b + c))
    (hcomm : ∀ a b : α, a + b = b + a) {amounts others : List α} (h : amounts.Perm others) :
    sum amounts = sum others := by
  have : RightCommutative (· + · : α → α → α) :=
    ⟨fun a b c => by rw [hassoc, hcomm b c, ← hassoc]⟩
  exact h.foldl_eq _

/-- The total of a tree that files all the roots of its arena, node by node. -/
theorem CallTree.totalTime_eq [Amount α] {tree : CallTree α}
    (hroots : tree.linksOf none = tree.filed none) : tree.totalTime = Amount.sum
      ((tree.listed.filter (·.parent = none)).map (·.measurement.totalTime)) := by
  have htargets : tree.roots = (tree.filed none).targets := congrArg Links.targets hroots
  rw [← filterMap_range_filter, length_listed, totalTime, htargets, targets_filed]
  congr 1
  have hlisted : ((List.range tree.size).filter fun id =>
      tree.origins[id]?.any fun origin => origin.parent = none) =
        (List.range tree.size).filter fun i => tree.listed[i]?.any fun node =>
          node.parent = none := by
    refine List.filter_congr fun i _ => ?_
    rw [origins_getElem?, listed_getElem?, Option.any_map, Option.any_map]
    rfl
  rw [hlisted]
  refine List.filterMap_congr fun i _ => ?_
  rw [listed_getElem?, Option.map_map]
  rfl

/-! ## Listed methods -/

namespace Registry

variable [Amount α]

theorem ofDump_concat (listed : List (DumpedMethod α)) (last : DumpedMethod α) :
    ofDump (listed ++ [last]) =
      (((ofDump listed).1.insert last.toRecord).1,
        (ofDump listed).2.push ((ofDump listed).1.insert last.toRecord).2) := by
  unfold ofDump
  rw [List.foldl_append]
  rfl

/-- Listed methods are asked for one after another. -/
theorem ofDump_eq_served (listed : List (DumpedMethod α)) :
    ofDump listed =
      ((served (listed.map fun dumped => .insert dumped.toRecord)).1,
        (served (listed.map fun dumped => .insert dumped.toRecord)).2.toArray) := by
  induction listed using List.reverseRecOn with
  | nil => rfl
  | append_singleton listed last ih =>
      rw [ofDump_concat, ih, List.map_append, List.map_singleton, served_concat,
        List.push_toArray]
      rfl

/-- The records are those of the methods in the order of their first listings, and every listing
leads to the record of its method. -/
theorem ofDump_identities (listed : List (DumpedMethod α)) :
    (ofDump listed).1.identities = (listed.map (·.method)).eraseDups ∧
      (ofDump listed).2.toList = listed.map fun dumped =>
        (ofDump listed).1.identities.idxOf dumped.method := by
  have hserves := serves_served (listed.map fun dumped => Request.insert dumped.toRecord)
  rw [ofDump_eq_served]
  refine ⟨hserves.order.trans ?_, hserves.places.trans ?_⟩
  · rw [List.map_map]
    rfl
  · rw [List.map_map]
    rfl

/-- A record is what was listed first of its method. -/
theorem ofDump_first {listed : List (DumpedMethod α)} : ∀ {id : Nat} {record : MethodRecord α},
    (ofDump listed).1.record? id = some record →
    ∃ first, listed.find? (fun dumped => dumped.method = record.method) = some first ∧
      record = { first.toRecord with key := record.key } := by
  induction listed using List.reverseRecOn with
  | nil => intro id record hid; exact absurd (record?_lt hid) (Nat.not_lt_zero _)
  | append_singleton listed last ih =>
      intro id record hid
      have hbefore : ∀ {id : Nat} {record : MethodRecord α},
          (ofDump listed).1.record? id = some record →
          ∃ first, (listed ++ [last]).find? (fun dumped => dumped.method = record.method) =
            some first ∧ record = { first.toRecord with key := record.key } := by
        intro id record hid
        obtain ⟨first, hfirst, heq⟩ := ih hid
        exact ⟨first, by rw [List.find?_append, hfirst, Option.some_or], heq⟩
      rw [ofDump_concat] at hid
      unfold Registry.insert at hid
      cases hlocate : (ofDump listed).1.locate last.toRecord.method with
      | found known =>
          rw [hlocate] at hid
          exact hbefore hid
      | free key =>
          rw [hlocate] at hid
          change ((ofDump listed).1.push _).record? id = some record at hid
          rw [record?_push] at hid
          split at hid
          · cases hid
            have hnew : listed.find? (fun dumped => dumped.method = last.method) = none := by
              refine List.find?_eq_none.mpr fun dumped hdumped hsame => ?_
              have hmem : last.method ∈ (ofDump listed).1.identities := by
                rw [(ofDump_identities listed).1, List.mem_eraseDups,
                  ← of_decide_eq_true hsame]
                exact List.mem_map_of_mem hdumped
              obtain ⟨other, found, hfound, hmethod⟩ := mem_identities.mp hmem
              exact (((entries_ofDump listed).grown.sound.locate_free hlocate).1 hfound).2 hmethod
            refine ⟨last, ?_, rfl⟩
            show (listed ++ [last]).find? (fun dumped => dumped.method = last.method) = some last
            rw [List.find?_append, hnew]
            simp
          · exact hbefore hid

/-- The id that a listing got is that of the record of its method. -/
theorem ofDump_ids {listed : List (DumpedMethod α)} {i id : Nat}
    (h : (ofDump listed).2[i]? = some id) :
    (ofDump listed).1.identities[id]? = listed[i]?.map (·.method) := by
  obtain ⟨horder, hplaces⟩ := ofDump_identities listed
  rw [← Array.getElem?_toList, hplaces, List.getElem?_map] at h
  obtain ⟨dumped, hdumped, rfl⟩ := Option.map_eq_some_iff.mp h
  rw [hdumped, Option.map_some]
  refine List.getElem?_idxOf ?_
  rw [horder, List.mem_eraseDups]
  exact List.mem_map_of_mem (List.mem_of_getElem? hdumped)

end Registry

/-! ## Listed nodes -/

/-- A listed node that names its record instead of a position in the list of methods. -/
def DumpedNode.identified (ids : Array MethodId) (node : DumpedNode α) : DumpedNode α :=
  { node with method := ids[node.method]?.getD 0 }

namespace Profile

variable [Amount α] {methods : Registry α} {ids : Array MethodId}

/-- A registry and the listed nodes, each in its place. -/
structure Taken (methods : Registry α) (ids : Array MethodId) (nodes : List (DumpedNode α))
    (after : Profile α) : Prop where
  names : after.methods.names = methods.names
  records : after.methods.records.toList.map DumpedMethod.ofRecord =
    methods.records.toList.map DumpedMethod.ofRecord
  listed : after.tree.listed = nodes.map (.identified ids)
  known : ∀ node ∈ nodes, ∃ id, ids[node.method]? = some id

omit [Amount α] in
theorem identified_eq {node : DumpedNode α} {method : MethodId}
    (h : ids[node.method]? = some method) :
    node.identified ids = { node with method := method } := by
  rw [DumpedNode.identified, h]
  rfl

theorem Taken.loadNode {nodes : List (DumpedNode α)} {current after : Profile α}
    {node : DumpedNode α} (h : Taken methods ids nodes current)
    (hknown : ∀ {i id : Nat}, ids[i]? = some id → id < methods.size)
    (hload : loadNode ids current node = .ok after) :
    Taken methods ids (nodes ++ [node]) after := by
  obtain ⟨method, hmethod, hparent, rfl⟩ := loadNode_eq_ok.mp hload
  obtain ⟨record, hrecord⟩ := Registry.exists_record?
    (show method < current.methods.size by
      rw [← Registry.size_names, h.names, Registry.size_names]
      exact hknown hmethod)
  refine ⟨(names_placed hrecord).trans h.names, (records_placed hrecord).trans h.records, ?_, ?_⟩
  · rw [listed_placed hrecord hparent, h.listed, List.map_append, List.map_singleton,
      identified_eq hmethod]
  · rw [List.forall_mem_append, List.forall_mem_singleton]
    exact ⟨h.known, method, hmethod⟩

/-- Whatever is accepted is taken in as it is listed. -/
theorem taken_ofDump {listed : List (DumpedMethod α)} {nodes : List (DumpedNode α)}
    {after : Profile α} (h : ofDump listed nodes = .ok after) :
    Taken (Registry.ofDump listed).1 (Registry.ofDump listed).2 nodes after :=
  ofDump_keeps (Taken (Registry.ofDump listed).1 (Registry.ofDump listed).2)
    ⟨rfl, rfl, rfl, nofun⟩
    (fun hcurrent hnext => hcurrent.loadNode (Registry.entries_ofDump listed).known hnext) h

omit [Amount α] in
theorem Taken.size_eq {nodes : List (DumpedNode α)} {after : Profile α}
    (h : Taken methods ids nodes after) : after.tree.size = nodes.length := by
  rw [← CallTree.length_listed, h.listed, List.length_map]

omit [Amount α] in
theorem Taken.listed_node {nodes : List (DumpedNode α)} {after : Profile α}
    (h : Taken methods ids nodes after) {i : Nat} {node : Node α}
    (hnode : after.tree.node? i = some node) :
    ∃ listed, nodes[i]? = some listed ∧ ids[listed.method]? = some node.method ∧
      node.parent = listed.parent ∧ node.measurement = listed.measurement ∧
      node.site = listed.site := by
  have hlisted := congrArg (·[i]?) h.listed
  simp only [CallTree.listed_getElem?, List.getElem?_map, hnode, Option.map_some] at hlisted
  obtain ⟨listed, hi, heq⟩ := Option.map_eq_some_iff.mp hlisted.symm
  obtain ⟨id, hid⟩ := h.known listed (List.mem_of_getElem? hi)
  rw [identified_eq hid] at heq
  refine ⟨listed, hi, hid.trans ?_, ?_, ?_, ?_⟩
  · exact congrArg (fun node => some node.method) heq
  · exact (congrArg DumpedNode.parent heq).symm
  · exact (congrArg DumpedNode.measurement heq).symm
  · exact (congrArg DumpedNode.site heq).symm

end Profile

/-! ## Accepted contexts -/

namespace DumpedContext

variable [Amount α] {dumped : DumpedContext α} {after : Profile α}

/-- A node is bound to the record of the method that it is a call of. -/
theorem methodOf?_listed {listed : DumpedNode α} {id : MethodId}
    (hid : (Registry.ofDump dumped.methods).2[listed.method]? = some id) :
    dumped.methodOf? listed = (Registry.ofDump dumped.methods).1.identities[id]? :=
  (Registry.ofDump_ids hid).symm

theorem listed_node (h : Profile.ofDump dumped.methods dumped.nodes = .ok after) {i : Nat}
    {node : Node α} (hnode : after.tree.node? i = some node) :
    ∃ listed record, dumped.nodes[i]? = some listed ∧
      after.methods.record? node.method = some record ∧
      dumped.methodOf? listed = some record.method ∧ node.parent = listed.parent ∧
      node.measurement = listed.measurement ∧ node.site = listed.site := by
  have htaken := Profile.taken_ofDump h
  obtain ⟨listed, hi, hid, hrest⟩ := htaken.listed_node hnode
  obtain ⟨record, hrecord, -⟩ := (Profile.filed_of_load h).bound hnode
  have hidentities : after.methods.identities =
      (Registry.ofDump dumped.methods).1.identities := by
    unfold Registry.identities
    rw [htaken.names]
  refine ⟨listed, record, hi, hrecord, ?_, hrest⟩
  rw [methodOf?_listed hid, ← hidentities, Registry.identities_getElem?, hrecord]
  rfl

/-- A node has the path that is listed in its place. -/
theorem paths_listed (h : Profile.ofDump dumped.methods dumped.nodes = .ok after) :
    ∀ {i : Nat}, i < after.tree.size → dumped.paths[i]? = some (after.path i) := by
  have hclimbing := (Profile.filed_of_load h).tree.toClimbing
  intro i
  induction i using Nat.strongRecOn with
  | ind i ih =>
      intro hlt
      obtain ⟨node, hnode⟩ := CallTree.exists_node? hlt
      obtain ⟨listed, record, hi, hrecord, hmethod, hparent, -⟩ := listed_node h hnode
      have hbefore : ∀ p : Nat, listed.parent = some p → p < i := by
        intro p hp
        exact hclimbing.parent_lt hnode (hparent.trans hp)
      rw [paths, DumpedNode.paths_getElem? hi hbefore, hmethod,
        Profile.path_of_climbing hclimbing hnode hrecord, hparent]
      cases hp : listed.parent with
      | none => rfl
      | some p =>
          have hup := ih p (hbefore p hp) (Nat.lt_trans (hbefore p hp) hlt)
          rw [paths] at hup
          rw [Option.bind_some, hup]
          rfl

/-- At every path the arena has what is listed there. -/
theorem nodesAt_listed (h : Profile.ofDump dumped.methods dumped.nodes = .ok after)
    (path : List Method) :
    (after.nodesAt path).map (·.measurement) = (dumped.nodesAt path).map (·.measurement) := by
  have hsize := (Profile.taken_ofDump h).size_eq
  have hsame : ((List.range after.tree.size).filter fun i => after.path i = path) =
      (List.range dumped.nodes.length).filter fun i => dumped.paths[i]? = some path := by
    rw [hsize]
    refine List.filter_congr fun i hi => ?_
    rw [paths_listed h (hsize ▸ List.mem_range.mp hi)]
    exact decide_eq_decide.mpr Option.some_inj.symm
  rw [Profile.nodesAt, nodesAt, ← hsame, List.map_filterMap, List.map_filterMap]
  refine List.filterMap_congr fun i hi => ?_
  obtain ⟨node, hnode⟩ := CallTree.exists_node?
    (List.mem_range.mp (List.mem_filter.mp hi).1)
  obtain ⟨listed, -, hlisted, -, -, -, hmeasurement, -⟩ := listed_node h hnode
  rw [hnode, hlisted, Option.map_some, Option.map_some, hmeasurement]

/-- What is filed under a parent while listed nodes are taken in. -/
structure Files (dumped : DumpedContext α) (parent : Option NodeId) (nodes : List (DumpedNode α))
    (current : Profile α) : Prop where
  filed : current.Filed
  taken : Profile.Taken (Registry.ofDump dumped.methods).1 (Registry.ofDump dumped.methods).2 nodes
    current
  links : ((nodes.filter (·.parent = parent)).Pairwise fun a b =>
      dumped.methodOf? a ≠ dumped.methodOf? b) →
    current.tree.linksOf parent = current.tree.filed parent

/-- Under its parent, a node of a method that is not there yet has a key that is not there yet. -/
theorem Files.get?_eq_none {nodes : List (DumpedNode α)} {node : DumpedNode α}
    {current : Profile α} (h : Files dumped node.parent nodes current) {method : MethodId}
    {record : MethodRecord α}
    (hmethod : (Registry.ofDump dumped.methods).2[node.method]? = some method)
    (hrecord : current.methods.record? method = some record)
    (hnew : ∀ listed ∈ nodes, listed.parent = node.parent →
      dumped.methodOf? listed ≠ dumped.methodOf? node) :
    (current.tree.filed node.parent).get? record.key = none := by
  cases hget : (current.tree.filed node.parent).get? record.key with
  | none => rfl
  | some id =>
      obtain ⟨found, hfound, hp, hkey⟩ := CallTree.mem_filed.mp (Links.mem_of_get? hget)
      obtain ⟨listed, hi, hid, hparent, -⟩ := h.taken.listed_node hfound
      obtain ⟨other, hother, hotherKey⟩ := h.filed.bound hfound
      have hsame := h.filed.grown.sound.key_inj hother hrecord (hotherKey.trans hkey)
      refine absurd ?_ (hnew listed (List.mem_of_getElem? hi) (hparent.symm.trans hp))
      rw [methodOf?_listed hid, methodOf?_listed hmethod, hsame]

theorem Files.loadNode {parent : Option NodeId} {nodes : List (DumpedNode α)}
    {node : DumpedNode α} {current next : Profile α} (h : Files dumped parent nodes current)
    (hload : Profile.loadNode (Registry.ofDump dumped.methods).2 current node = .ok next) :
    Files dumped parent (nodes ++ [node]) next := by
  refine ⟨(Profile.continues_loadNode hload).filed h.filed,
    h.taken.loadNode (Registry.entries_ofDump dumped.methods).known hload, fun hapart => ?_⟩
  obtain ⟨method, hmethod, hparent, rfl⟩ := Profile.loadNode_eq_ok.mp hload
  have hknown := (Registry.entries_ofDump dumped.methods).known hmethod
  obtain ⟨record, hrecord⟩ := Registry.exists_record?
    (show method < current.methods.size by
      rwa [← Registry.size_names, h.taken.names, Registry.size_names])
  rw [List.filter_append, List.pairwise_append] at hapart
  obtain ⟨hbefore, -, hnew⟩ := hapart
  have hshape := Profile.sameShape_placed current method node
  rw [hshape.linksOf, CallTree.filed_congr hshape.origins, Profile.attach_of_record hrecord]
  refine h.filed.tree.toClimbing.linksOf_link_eq (hparent.fresh method record.key node.site) rfl
    (fun _ => h.links hbefore) fun hp => ?_
  obtain rfl : node.parent = parent := hp
  refine h.get?_eq_none hmethod hrecord fun listed hlisted hp => ?_
  exact hnew listed (List.mem_filter.mpr ⟨hlisted, decide_eq_true hp⟩) node (by simp)

/-- Where no two nodes under a parent are calls of one method, every one of them is filed. -/
theorem ApartUnder.linksOf_eq {parent : Option NodeId} (hapart : dumped.ApartUnder parent)
    (h : Profile.ofDump dumped.methods dumped.nodes = .ok after) :
    after.tree.linksOf parent = after.tree.filed parent := by
  refine (Profile.ofDump_keeps (Files dumped parent) ⟨?_, ⟨rfl, rfl, rfl, nofun⟩, fun _ => ?_⟩
    (fun hcurrent hnext => hcurrent.loadNode hnext) h).links hapart
  · exact Profile.filed_of_load (show Profile.ofDump dumped.methods [] = .ok _ from rfl)
  · cases parent <;> rfl

/-- The time in all is what is listed of the nodes without a parent. -/
theorem totalTime_listed (hapart : dumped.ApartUnder none)
    (h : Profile.ofDump dumped.methods dumped.nodes = .ok after) :
    after.tree.totalTime = Amount.sum dumped.rootTotals := by
  rw [CallTree.totalTime_eq (hapart.linksOf_eq h), (Profile.taken_ofDump h).listed,
    List.filter_map, List.map_map]
  rfl

/-- The walks meet every node when each is filed under its parent. -/
theorem walkAll_listed (hapart : dumped.Apart)
    (h : Profile.ofDump dumped.methods dumped.nodes = .ok after) :
    after.tree.walkAll.Perm (List.range dumped.nodes.length) := by
  have hlinked : after.tree.Linked :=
    { toClimbing := (Profile.filed_of_load h).tree.toClimbing
      roots := (hapart.under none).linksOf_eq h
      links := fun {id node} hnode => by
        rw [← CallTree.linksOf_of_node? hnode]
        exact (hapart.under (some id)).linksOf_eq h }
  rw [← (Profile.taken_ofDump h).size_eq]
  exact hlinked.walkAll_perm

/-! ## What is kept -/

/-- What a context that was loaded has of what was listed. -/
structure Retains (dumped : DumpedContext α) (loaded : Context α) : Prop where
  key : loaded.key = ⟨dumped.thread, dumped.fiber⟩
  /-- There is a record for every method, in the order of the first listings. -/
  methods : loaded.profile.methods.identities = (dumped.methods.map (·.method)).eraseDups
  /-- A record is what is listed first of its method, under a key of its own. -/
  first : ∀ record ∈ loaded.profile.methods.records, ∃ first,
    dumped.methods.find? (fun listed => listed.method = record.method) = some first ∧
      DumpedMethod.ofRecord record =
        { DumpedMethod.ofRecord first.toRecord with key := record.key.number }
  /-- There is a node for every listed one, in its place. -/
  count : loaded.profile.tree.size = dumped.nodes.length
  node : ∀ {i : Nat} {node : Node α}, loaded.profile.tree.node? i = some node →
    ∃ listed record, dumped.nodes[i]? = some listed ∧
      loaded.profile.methods.record? node.method = some record ∧
      dumped.methodOf? listed = some record.method ∧ node.parent = listed.parent ∧
      node.measurement = listed.measurement ∧ node.site = listed.site
  /-- Along every call path stands what is listed of it. -/
  paths : ∀ path, (loaded.profile.nodesAt path).map (·.measurement) =
    (dumped.nodesAt path).map (·.measurement)
  /-- Where no two siblings are of one method, the walks meet every node once. -/
  walked : dumped.Apart → loaded.profile.tree.walkAll.length = dumped.nodes.length ∧
    loaded.profile.tree.walkAll.Perm (List.range dumped.nodes.length)
  /-- Where no two roots are of one method, the time in all is that of all roots, in some order. -/
  total : dumped.ApartUnder none → ∃ order, order.Perm dumped.rootTotals ∧
    loaded.totalTime = Amount.sum order
  /-- Any order will do for amounts that are added exactly. -/
  exactly : dumped.ApartUnder none → (∀ a b c : α, a + b + c = a + (b + c)) →
    (∀ a b : α, a + b = b + a) → ∀ order, order.Perm dumped.rootTotals →
      loaded.totalTime = Amount.sum order

theorem retains_toContext {loaded : Context α} (h : dumped.toContext = .ok loaded) :
    dumped.Retains loaded := by
  obtain ⟨profile, hload, rfl⟩ := toContext_eq_ok.mp h
  have htaken := Profile.taken_ofDump hload
  refine ⟨rfl, ?_, fun record hrecord => ?_, htaken.size_eq, listed_node hload,
    nodesAt_listed hload, fun hapart => ?_,
    fun hapart => ⟨_, .refl _, totalTime_listed hapart hload⟩,
    fun hapart hassoc hcomm order horder => ?_⟩
  · rw [← (Registry.ofDump_identities dumped.methods).1]
    show profile.methods.names.toList.map _ = _
    rw [htaken.names]
    rfl
  · have hmem := List.mem_map_of_mem (f := DumpedMethod.ofRecord) (Array.mem_toList_iff.mpr hrecord)
    change _ ∈ profile.methods.records.toList.map DumpedMethod.ofRecord at hmem
    rw [htaken.records] at hmem
    obtain ⟨found, hfound, heq⟩ := List.mem_map.mp hmem
    obtain ⟨id, hid⟩ := Array.mem_iff_getElem?.mp (Array.mem_toList_iff.mp hfound)
    obtain ⟨first, hfirst, hshown⟩ := Registry.ofDump_first hid
    have hmethod : found.method = record.method := congrArg DumpedMethod.method heq
    have hkey : found.key.number = record.key.number := congrArg DumpedMethod.key heq
    refine ⟨first, hmethod ▸ hfirst, ?_⟩
    rw [← heq, ← hkey, hshown]
    rfl
  · have hperm := walkAll_listed hapart hload
    exact ⟨hperm.length_eq.trans List.length_range, hperm⟩
  · exact (totalTime_listed hapart hload).trans (Amount.sum_perm hassoc hcomm horder.symm)

end DumpedContext

namespace Session

variable [Amount α]

/-- Every context that a dump lists is loaded in its place, with what is listed of it. -/
theorem retained {dump : Dump α} {loaded : Session α} (h : ofDump dump = .ok loaded) :
    List.Forall₂ DumpedContext.Retains dump.contexts (loaded.threads.map (·.2)) :=
  (forall₂_of_mapM (threads_of_load h)).imp fun _ _ hload => DumpedContext.retains_toContext hload

/-- A method that is listed twice, and calls itself. -/
def listedTwice : DumpedContext Int :=
  ⟨1, 0,
    [⟨7, ⟨⟨.plain, "A"⟩, "f"⟩, none, ⟨10, 0, 15, 2⟩, true, true, false, []⟩,
      ⟨8, ⟨⟨.plain, "A"⟩, "f"⟩, none, ⟨5, 0, 5, 1⟩, false, false, false, []⟩],
    [⟨0, none, ⟨10, 0, 15, 1⟩, .none⟩, ⟨1, some 0, ⟨5, 0, 5, 1⟩, .none⟩]⟩

theorem retained_listed_twice : ∃ loaded : Session Int,
    ofDump ⟨dumpVersion, programVersion, .wallTime, [listedTwice]⟩ = .ok loaded ∧
    listedTwice.Apart ∧
    List.Forall₂ DumpedContext.Retains [listedTwice] (loaded.threads.map (·.2)) := by
  have haccepted : (ofDump ⟨dumpVersion, programVersion, .wallTime, [listedTwice]⟩).isOk := by
    decide +kernel
  cases hload : ofDump ⟨dumpVersion, programVersion, .wallTime, [listedTwice]⟩ with
  | error error =>
      rw [hload] at haccepted
      cases haccepted
  | ok loaded =>
      refine ⟨loaded, rfl, ?_, retained hload⟩
      unfold DumpedContext.Apart
      decide +kernel

/-- A context that has as many records and nodes as are listed, and all that is listed of them. -/
structure LosesNothing (dumped : DumpedContext α) (loaded : Context α) : Prop where
  methods : loaded.profile.methods.size = dumped.methods.length
  nodes : loaded.profile.tree.walkAll.length = dumped.nodes.length
  paths : ∀ path,
    ((loaded.profile.nodesAt path).map (·.measurement)).foldl Measurement.merge .empty =
      ((dumped.nodesAt path).map (·.measurement)).foldl Measurement.merge .empty
  total : loaded.totalTime =
    Amount.sum ((dumped.nodes.filter (·.parent = none)).map (·.measurement.totalTime))

/-- A second listing of a method makes no record. -/
theorem second_listing_lost : ∃ loaded : Session Int,
    ofDump ⟨dumpVersion, programVersion, .wallTime, [listedTwice]⟩ = .ok loaded ∧
    ¬List.Forall₂ LosesNothing [listedTwice] (loaded.threads.map (·.2)) := by
  have hshown : ((ofDump ⟨dumpVersion, programVersion, .wallTime, [listedTwice]⟩).toOption.map
      fun loaded => (loaded.threads.map (·.2)).map (·.profile.methods.size)) = some [1] := by
    decide +kernel
  cases hload : ofDump ⟨dumpVersion, programVersion, .wallTime, [listedTwice]⟩ with
  | error error =>
      rw [hload] at hshown
      cases hshown
  | ok loaded =>
      refine ⟨loaded, rfl, fun hall => ?_⟩
      rw [hload] at hshown
      change some ((loaded.threads.map (·.2)).map _) = some [1] at hshown
      obtain ⟨first, rest, hfirst, -, heq⟩ := List.forall₂_cons_left_iff.mp hall
      rw [heq, Option.some.injEq, List.map_cons, hfirst.methods] at hshown
      cases hshown

/-- Two nodes of one method without a parent, of which only the later one is met and counted. -/
theorem repeated_root_unmet : ∃ (dumped : DumpedContext Int) (loaded : Session Int),
    ofDump ⟨dumpVersion, programVersion, .wallTime, [dumped]⟩ = .ok loaded ∧
    ¬dumped.ApartUnder none ∧ dumped.rootTotals = [10, 20] ∧
    (loaded.threads.map fun entry => (entry.2.profile.tree.size, entry.2.profile.tree.walkAll,
      entry.2.totalTime)) = [(2, [1], 20)] := by
  let dumped : DumpedContext Int :=
    ⟨1, 0, [⟨7, ⟨⟨.plain, "A"⟩, "f"⟩, none, ⟨30, 0, 30, 2⟩, false, true, false, []⟩],
      [⟨0, none, ⟨10, 0, 10, 1⟩, .none⟩, ⟨0, none, ⟨20, 0, 20, 1⟩, .none⟩]⟩
  have hshown : ((ofDump ⟨dumpVersion, programVersion, .wallTime, [dumped]⟩).toOption.map
      fun loaded => loaded.threads.map fun entry => (entry.2.profile.tree.size,
        entry.2.profile.tree.walkAll, entry.2.totalTime)) = some [(2, [1], 20)] := by
    decide +kernel
  cases hload : ofDump ⟨dumpVersion, programVersion, .wallTime, [dumped]⟩ with
  | error error =>
      rw [hload] at hshown
      cases hshown
  | ok loaded =>
      rw [hload] at hshown
      refine ⟨dumped, loaded, hload, ?_, by decide, Option.some.inj hshown⟩
      unfold DumpedContext.ApartUnder
      decide +kernel

end Session

end CallLedger
