import CallLedger.Proofs.Acceptance
import CallLedger.Proofs.Endings

/-!
# What a dump is refused for

A dump can have faults of three kinds: another version, a node of a method that is not listed, and
a node whose parent does not stand before it. `Dump.faults` lists all of them in the order of the
dump. Loading succeeds when there are none, and otherwise ends with the first (`Dump.load_settled`).

That is so if it ends. It does not where a listed method is searched for in a circle of taken keys,
and then no later fault is reported, and no session comes of the dump either (`Dump.Endless`,
`endless_circle`).

No position leads out of its array, whatever the dump says. Loading goes on only as long as every
listed node has become a node, so a parent that stands before a node has been made, under the
position that it has in the list (`Loading.Ready`). A method that is listed again gets the id that
it has got before, so there may be fewer records than listed methods, but there are as many ids as
listed methods, and each of them leads to a record (`Registry.entries_ofDump`).
-/

namespace CallLedger

/-! ## Faults -/

section

variable {α : Type}

/-- What is wrong with a node at a position behind so many methods. -/
def DumpedNode.faults (known position : Nat) (node : DumpedNode α) : List DumpError :=
  (if node.method < known then [] else [.unknownMethod position node.method]) ++
    (node.parent.toList.filter (position ≤ ·)).map (.parentOrder position)

def DumpedContext.faults (dumped : DumpedContext α) : List DumpError :=
  dumped.nodes.zipIdx.flatMap fun (node, position) => node.faults dumped.methods.length position

def Dump.faults (dump : Dump α) : List DumpError :=
  (if dump.version = dumpVersion then [] else [.version dump.version]) ++
    dump.contexts.flatMap DumpedContext.faults

/-- Every node names a method that is listed and, if any, a parent before it. -/
def DumpedContext.WellIndexed (dumped : DumpedContext α) : Prop :=
  ∀ {position : Nat} {node : DumpedNode α}, dumped.nodes[position]? = some node →
    node.method < dumped.methods.length ∧ ∀ parent, node.parent = some parent → parent < position

theorem DumpedNode.faults_eq_nil {known position : Nat} {node : DumpedNode α} :
    node.faults known position = [] ↔
      node.method < known ∧ ∀ parent, node.parent = some parent → parent < position := by
  simp [faults, Option.mem_toList]

theorem DumpedContext.faults_eq_nil {dumped : DumpedContext α} :
    dumped.faults = [] ↔ dumped.WellIndexed := by
  simp only [faults, List.flatMap_eq_nil_iff, DumpedNode.faults_eq_nil, Prod.forall,
    List.mem_zipIdx_iff_getElem?]
  exact ⟨fun h _ _ hnode => h _ _ hnode, fun h _ _ hnode => h hnode⟩

theorem Dump.faults_eq_nil {dump : Dump α} :
    dump.faults = [] ↔
      dump.version = dumpVersion ∧ ∀ dumped ∈ dump.contexts, dumped.WellIndexed := by
  simp [faults, DumpedContext.faults_eq_nil]

end

/-! ## The first fault ends the loading -/

section

variable {β γ ε : Type} {outcome : Except ε β} {next : β → Except ε γ} {first later : List ε}

/-- Something fails for the first of its faults, and only if it has any. -/
def Reports (outcome : Except ε β) (faults : List ε) : Prop :=
  ∀ cause, outcome = .error cause ↔ faults.head? = some cause

theorem reports_ok (result : β) : Reports (.ok result : Except ε β) [] :=
  fun _ => iff_of_false nofun nofun

theorem reports_error (fault : ε) (later : List ε) :
    Reports (.error fault : Except ε β) (fault :: later) := by
  simp [Reports]

/-- One thing after another has the faults of both, one after another. -/
theorem Reports.bind (hfirst : Reports outcome first)
    (hnext : ∀ result, outcome = .ok result → Reports (next result) later) :
    Reports (outcome >>= next) (first ++ later) := by
  intro cause
  rw [List.head?_append]
  cases houtcome : outcome with
  | error fault =>
      rw [(hfirst fault).mp houtcome, Option.some_or]
      exact reports_error fault [] cause
  | ok result =>
      have hnone : first.head? = none := by
        refine Option.eq_none_iff_forall_ne_some.mpr fun fault hfault => ?_
        rw [(hfirst fault).mpr hfault] at houtcome
        cases houtcome
      rw [hnone, Option.none_or]
      exact hnext result houtcome cause

theorem Reports.map (h : Reports outcome first) (change : β → γ) :
    Reports (outcome >>= fun result => .ok (change result)) first := by
  have hall := h.bind fun result _ => reports_ok (ε := ε) (change result)
  rwa [List.append_nil] at hall

theorem Reports.mapM {faults : β → List ε} (h : ∀ item, Reports (next item) (faults item))
    (items : List β) : Reports (items.mapM next) (items.flatMap faults) := by
  induction items with
  | nil => exact reports_ok []
  | cons item rest ih =>
      rw [List.mapM_cons, List.flatMap_cons]
      exact (h item).bind fun loaded _ => ih.map (loaded :: ·)

/-- What has no faults comes to a result. -/
theorem Reports.exists_ok_iff (h : Reports outcome first) :
    (∃ result, outcome = .ok result) ↔ first = [] := by
  cases outcome with
  | error cause =>
      have hhead := (h cause).mp rfl
      exact iff_of_false nofun (by rintro rfl; cases hhead)
  | ok result =>
      refine iff_of_true ⟨result, rfl⟩ (List.head?_eq_none_iff.mp ?_)
      exact Option.eq_none_iff_forall_ne_some.mpr fun cause hcause => nomatch (h cause).mpr hcause

end

variable {α : Type} [Amount α]

namespace Profile

variable {ids : Array MethodId} {position : Nat} {profile after : Profile α}
  {node : DumpedNode α}

/-- A profile with so many nodes, and with a record for each of the ids. -/
structure Awaits (ids : Array MethodId) (position : Nat) (profile : Profile α) : Prop where
  known : ∀ {i id : Nat}, ids[i]? = some id → id < profile.methods.size
  size : profile.tree.size = position

theorem awaits_ofDump (methods : List (DumpedMethod α)) :
    Awaits (Registry.ofDump methods).2 0 ⟨(Registry.ofDump methods).1, .empty⟩ :=
  ⟨(Registry.entries_ofDump methods).known, rfl⟩

theorem Awaits.loadNode (h : Awaits ids position profile)
    (hload : loadNode ids profile node = .ok after) : Awaits ids (position + 1) after := by
  obtain ⟨method, hmethod, -, rfl⟩ := loadNode_eq_ok.mp hload
  obtain ⟨record, hrecord⟩ := Registry.exists_record? (h.known hmethod)
  refine ⟨fun hid => ?_, ?_⟩
  · rw [← Registry.size_names, names_placed hrecord, Registry.size_names]
    exact h.known hid
  · rw [(sameShape_placed profile method node).size, size_attach _ _ hrecord, h.size]

theorem reports_loadNode (ids : Array MethodId) (profile : Profile α) (node : DumpedNode α) :
    Reports (loadNode ids profile node) (node.faults ids.size profile.tree.size) := by
  unfold loadNode DumpedNode.faults
  by_cases hlt : node.method < ids.size
  · rw [if_pos hlt, Array.getElem?_eq_getElem hlt]
    cases node.parent with
    | none => exact reports_ok _
    | some parent =>
        by_cases hparent : parent < profile.tree.size
        · simp [hparent, reports_ok]
        · simp [hparent, Nat.not_lt.mp hparent, reports_error]
  · rw [if_neg hlt, Array.getElem?_eq_none (Nat.not_lt.mp hlt)]
    exact reports_error _ _

/-- By induction on the nodes that are left, each of which is loaded at its position. -/
theorem Awaits.reports_foldlM (nodes : List (DumpedNode α)) :
    ∀ {position : Nat} {profile : Profile α}, Awaits ids position profile →
      Reports (nodes.foldlM (Profile.loadNode ids) profile)
        ((nodes.zipIdx position).flatMap fun (node, place) => node.faults ids.size place) := by
  induction nodes with
  | nil => exact fun _ => reports_ok _
  | cons node rest ih =>
      intro position profile h
      have hnode := reports_loadNode ids profile node
      rw [h.size] at hnode
      rw [List.foldlM_cons, List.zipIdx_cons, List.flatMap_cons]
      exact hnode.bind fun after hload => ih (h.loadNode hload)

end Profile

/-- Each listed method gets an id. -/
theorem Registry.size_ids (listed : List (DumpedMethod α)) :
    (Registry.ofDump listed).2.size = listed.length := by
  rw [← Array.length_toList, (ofDump_identities listed).2, List.length_map]

theorem DumpedContext.reports_toContext (dumped : DumpedContext α) :
    Reports dumped.toContext dumped.faults := by
  have hnodes := Profile.Awaits.reports_foldlM dumped.nodes (Profile.awaits_ofDump dumped.methods)
  rw [Registry.size_ids] at hnodes
  exact hnodes.map (Context.settled ⟨dumped.thread, dumped.fiber⟩)

namespace Loading

theorem element_eq_ok {β : Type} {items : Array β} {position : Nat} {item : β}
    (h : items[position]? = some item) : element items position = .ok item := by
  rw [element, h]

theorem alter_eq_ok {β : Type} {items : Array β} {position : Nat} (h : position < items.size)
    (change : β → β) : alter items position change = .ok (items.modify position change) := by
  rw [alter, element_eq_ok (Array.getElem?_eq_getElem h)]
  rfl

omit [Amount α] in
/-- A parent that has been made is there to file with. -/
theorem link_eq_ok {tree : CallTree α} {node : Node α}
    (hparent : ∀ p : Nat, node.parent = some p → p < tree.size) :
    link tree node = .ok (tree.link node) := by
  unfold link CallTree.link
  cases hp : node.parent with
  | none => rfl
  | some parent =>
      have hlt : parent < (tree.nodes.push node).size := by
        rw [Array.size_push]
        exact Nat.lt_succ_of_lt (hparent parent hp)
      simp only [alter_eq_ok hlt]
      rfl

variable {ids : Array MethodId} {position : Nat} {loading : Loading α} {profile : Profile α}

theorem attach_eq_ok {parent : Option NodeId} {method : Nat} {site : CallSite}
    (hmethod : method < profile.methods.size) (hparent : profile.HasParent parent) :
    attach profile parent method site =
      .ok (profile.attach parent method site, profile.tree.size) := by
  obtain ⟨record, hrecord⟩ := Registry.exists_record? hmethod
  unfold attach
  rw [element_eq_ok (show profile.methods.records[method]? = some record from hrecord),
    Profile.attach_of_record hrecord]
  simp only [bind, Except.bind, link_eq_ok (hparent.fresh method record.key site),
    alter_eq_ok (show method < profile.methods.records.size from hmethod)]
  rfl

theorem place_eq_ok {method : Nat} {node : DumpedNode α}
    (hmethod : method < loading.profile.methods.size)
    (hparent : loading.profile.HasParent node.parent) :
    loading.place method node.parent node =
      .ok ⟨loading.profile.placed method node, loading.made.push loading.profile.tree.size⟩ := by
  obtain ⟨record, hrecord⟩ := Registry.exists_record? hmethod
  have hlast : loading.profile.tree.size <
      (loading.profile.attach node.parent method node.site).tree.nodes.size := by
    show _ < (loading.profile.attach node.parent method node.site).tree.size
    rw [Profile.size_attach _ _ hrecord]
    exact Nat.lt_succ_self _
  unfold place
  rw [attach_eq_ok hmethod hparent]
  simp only [bind, Except.bind, alter_eq_ok hlast]
  rfl

/-- Loading that has come to a position: each listed node before it has become the node of the same
position, and there is a record for each of the ids. -/
structure Ready (ids : Array MethodId) (position : Nat) (loading : Loading α) : Prop
    extends loading.profile.Awaits ids position where
  made : ∀ {i : Nat}, i < position → loading.made[i]? = some i
  size_made : loading.made.size = position

theorem Ready.push (h : Ready ids position loading) {node : DumpedNode α} {after : Profile α}
    (hload : Profile.loadNode ids loading.profile node = .ok after) :
    Ready ids (position + 1) ⟨after, loading.made.push position⟩ := by
  refine ⟨h.toAwaits.loadNode hload, fun {i} hi => ?_, ?_⟩
  · rw [Array.getElem?_push, h.size_made]
    split
    · next heq => rw [heq]
    · exact h.made (by omega)
  · rw [Array.size_push, h.size_made]

omit [Amount α] in
/-- A parent that stands before the node has been made under its position. -/
theorem Ready.parentOf_eq_ok (h : Ready ids position loading) {node : DumpedNode α}
    (hparent : ∀ p : Nat, node.parent = some p → p < position) :
    parentOf loading.made position node = .ok node.parent := by
  unfold parentOf
  cases hp : node.parent with
  | none => rfl
  | some parent =>
      have hlt := hparent parent hp
      simp only [if_pos hlt, element_eq_ok (h.made hlt)]
      rfl

/-- A listed node is taken or refused, and no access that this takes is out of range. -/
theorem Ready.take_eq (h : Ready ids position loading) (node : DumpedNode α) :
    take ids loading (node, position) =
      ((Profile.loadNode ids loading.profile node).map fun after =>
        (⟨after, loading.made.push position⟩ : Loading α)).mapError .refused := by
  cases hload : Profile.loadNode ids loading.profile node with
  | ok after =>
      obtain ⟨method, hmethod, hparent, rfl⟩ := Profile.loadNode_eq_ok.mp hload
      have hplaced := place_eq_ok (h.known hmethod) hparent
      unfold Profile.HasParent at hparent
      rw [h.size] at hparent hplaced
      simp only [take, methodOf, hmethod, h.parentOf_eq_ok hparent, bind, Except.bind]
      exact hplaced
  | error cause =>
      unfold Profile.loadNode at hload
      simp only [h.size] at hload
      unfold take methodOf parentOf
      split at hload
      · next hmethod =>
          cases hload
          simp only [hmethod]
          rfl
      · next method hmethod =>
          split at hload
          · cases hload
          · next parent hparent =>
              split at hload
              · cases hload
              · next hlate =>
                  cases hload
                  simp only [hmethod, hparent, if_neg hlate]
                  rfl

/-- By induction on the nodes that are left, each of which is taken at its position. -/
theorem Ready.foldlM_eq (nodes : List (DumpedNode α)) :
    ∀ {position : Nat} {loading : Loading α}, Ready ids position loading →
      ((nodes.zipIdx position).foldlM (take ids) loading).map (·.profile) =
        (nodes.foldlM (Profile.loadNode ids) loading.profile).mapError .refused := by
  induction nodes with
  | nil => exact fun _ => rfl
  | cons node rest ih =>
      intro position loading h
      rw [List.zipIdx_cons, List.foldlM_cons, List.foldlM_cons, h.take_eq]
      cases hload : Profile.loadNode ids loading.profile node with
      | error _ => rfl
      | ok after => exact ih (h.push hload)

theorem ready_ofDump (methods : List (DumpedMethod α)) :
    Ready (Registry.ofDump methods).2 0 ⟨⟨(Registry.ofDump methods).1, .empty⟩, #[]⟩ :=
  ⟨Profile.awaits_ofDump methods, fun hi => absurd hi (Nat.not_lt_zero _), rfl⟩

theorem context_eq (dumped : DumpedContext α) :
    context (Registry.ofDump dumped.methods) dumped = dumped.toContext.mapError .refused := by
  have hready := ready_ofDump dumped.methods
  unfold context DumpedContext.toContext Profile.ofDump
  generalize Registry.ofDump dumped.methods = entered at hready ⊢
  obtain ⟨registry, ids⟩ := entered
  have hnodes := Ready.foldlM_eq dumped.nodes hready
  simp only [] at hnodes ⊢
  generalize dumped.nodes.zipIdx.foldlM (take ids) _ = taken at hnodes ⊢
  generalize dumped.nodes.foldlM (Profile.loadNode ids) _ = loaded at hnodes ⊢
  cases loaded with
  | error cause =>
      cases taken with
      | error fault =>
          cases hnodes
          rfl
      | ok _ => cases hnodes
  | ok profile =>
      cases taken with
      | error _ => cases hnodes
      | ok loading =>
          cases hnodes
          rfl

end Loading

/-! ## Where loading does not end -/

section

variable {β γ ε : Type}

/-- What has no outcome had one up to some item, and has none with it. -/
theorem foldlM_eq_none {step : γ → β → Option γ} {items : List β} : ∀ {state : γ},
    items.foldlM step state = none ↔ ∃ before item after reached,
      items = before ++ item :: after ∧ before.foldlM step state = some reached ∧
        step reached item = none := by
  induction items with
  | nil =>
      refine fun {state} => iff_of_false nofun ?_
      rintro ⟨_ | _, _, _, _, hitems, _⟩ <;> cases hitems
  | cons first rest ih =>
      intro state
      rw [List.foldlM_cons]
      cases hstep : step state first with
      | none => exact iff_of_true rfl ⟨[], first, rest, state, rfl, rfl, hstep⟩
      | some next =>
          refine ih.trans ⟨?_, ?_⟩
          · rintro ⟨before, item, after, reached, rfl, hbefore, hitem⟩
            refine ⟨first :: before, item, after, reached, rfl, ?_, hitem⟩
            rw [List.foldlM_cons, hstep]
            exact hbefore
          · rintro ⟨before, item, after, reached, hitems, hbefore, hitem⟩
            cases before with
            | nil =>
                cases hitems
                cases hbefore
                rw [hstep] at hitem
                cases hitem
            | cons _ before =>
                cases hitems
                rw [List.foldlM_cons, hstep] at hbefore
                exact ⟨before, item, after, reached, rfl, hbefore, hitem⟩

/-- What goes on to an outcome in any case has none only for want of a beginning. -/
theorem bind_eq_none_iff_of_ne {outcome : Option β} {next : β → Option γ}
    (h : ∀ result, next result ≠ none) : (outcome >>= next) = none ↔ outcome = none := by
  cases outcome with
  | none => exact iff_of_true rfl rfl
  | some result => exact iff_of_false (h result) nofun

variable {load : β → ExceptT ε Option γ}

theorem mapM_run_cons (first : β) (rest : List β) :
    ((first :: rest).mapM load).run = (load first).run.bind fun
      | .ok loaded => (rest.mapM load).run.map (Except.map (loaded :: ·))
      | .error fault => some (.error fault) := by
  rw [List.mapM_cons, ExceptT.run_bind]
  refine congrArg _ (funext fun outcome => ?_)
  cases outcome with
  | error fault => rfl
  | ok loaded =>
      simp only [ExceptT.run_bind]
      cases (rest.mapM load).run with
      | none => rfl
      | some outcome => cases outcome <;> rfl

/-- A list has no outcome when one item has none and all before it are accepted. -/
theorem mapM_run_eq_none {items : List β} :
    (items.mapM load).run = none ↔ ∃ before item after, items = before ++ item :: after ∧
      (∀ earlier ∈ before, ∃ loaded, (load earlier).run = some (.ok loaded)) ∧
        (load item).run = none := by
  induction items with
  | nil => exact iff_of_false nofun (by rintro ⟨_ | _, _, _, hitems, _⟩ <;> cases hitems)
  | cons first rest ih =>
      rw [mapM_run_cons]
      cases hfirst : (load first).run with
      | none => exact iff_of_true rfl ⟨[], first, rest, rfl, nofun, hfirst⟩
      | some outcome =>
          cases outcome with
          | error fault =>
              refine iff_of_false nofun ?_
              rintro ⟨_ | ⟨_, before⟩, item, after, hitems, hbefore, hitem⟩
              · cases hitems
                rw [hfirst] at hitem
                cases hitem
              · cases hitems
                obtain ⟨loaded, hloaded⟩ := hbefore first List.mem_cons_self
                rw [hfirst] at hloaded
                cases hloaded
          | ok loaded =>
              rw [Option.bind_some, Option.map_eq_none_iff, ih]
              constructor
              · rintro ⟨before, item, after, rfl, hbefore, hitem⟩
                exact ⟨first :: before, item, after, rfl,
                  List.forall_mem_cons.mpr ⟨⟨loaded, hfirst⟩, hbefore⟩, hitem⟩
              · rintro ⟨_ | ⟨_, before⟩, item, after, hitems, hbefore, hitem⟩
                · cases hitems
                  rw [hfirst] at hitem
                  cases hitem
                · cases hitems
                  exact ⟨before, item, after, rfl, (List.forall_mem_cons.mp hbefore).2, hitem⟩

end

namespace Searching

theorem enterOne_eq_none {entered : Registry α × Array MethodId} {listed : DumpedMethod α} :
    enterOne entered listed = none ↔ ∀ tries outcome,
      ¬ entered.1.Searches listed.method (Key.first listed.method) tries outcome := by
  unfold enterOne insert
  rw [bind_eq_none_iff_of_ne (by rintro ⟨_, _⟩; nofun), bind_eq_none_iff_of_ne]
  · exact Registry.search_eq_none
  · rintro (_ | _) <;> nofun

theorem comesTo_context (dumped : DumpedContext α) :
    ComesTo (context dumped).run (dumped.toContext.mapError .refused) := by
  exact (comesTo_enter dumped.methods).bind (comesTo_of_eq (Loading.context_eq dumped))

end Searching

/-- Behind methods that have all been entered, one is listed for which the search has no end. -/
def DumpedContext.Endless (dumped : DumpedContext α) : Prop :=
  ∃ before listed after registry ids, dumped.methods = before ++ listed :: after ∧
    Searching.enter before = some (registry, ids) ∧
    ∀ tries outcome, ¬ registry.Searches listed.method (Key.first listed.method) tries outcome

/-- Nothing is refused before the first entry with a search that has no end. -/
def Dump.Endless (dump : Dump α) : Prop :=
  dump.version = dumpVersion ∧ ∃ before dumped after, dump.contexts = before ++ dumped :: after ∧
    (∀ earlier ∈ before, earlier.WellIndexed ∧ ¬ earlier.Endless) ∧ dumped.Endless

theorem Searching.context_eq_none (dumped : DumpedContext α) :
    (context dumped).run = none ↔ dumped.Endless := by
  show (enter dumped.methods >>= fun entered => some (Loading.context entered dumped)) = none ↔ _
  rw [bind_eq_none_iff_of_ne nofun, enter, foldlM_eq_none]
  refine exists_congr fun before => exists_congr fun listed => exists_congr fun after => ?_
  rw [Prod.exists]
  simp only [enterOne_eq_none]
  rfl

theorem Searching.context_accepts (dumped : DumpedContext α) :
    (∃ loaded, (context dumped).run = some (.ok loaded)) ↔
      dumped.WellIndexed ∧ ¬ dumped.Endless := by
  have hfaults := dumped.reports_toContext.exists_ok_iff.trans DumpedContext.faults_eq_nil
  rw [← hfaults, ← context_eq_none]
  cases hrun : (context dumped).run with
  | none => exact iff_of_false nofun fun h => h.2 rfl
  | some outcome =>
      obtain rfl := comesTo_context dumped outcome hrun
      cases dumped.toContext with
      | error cause => exact iff_of_false nofun (by rintro ⟨⟨_, h⟩, _⟩; cases h)
      | ok context => exact iff_of_true ⟨context, rfl⟩ ⟨⟨context, rfl⟩, nofun⟩

theorem Searching.load_eq_none (dump : Dump α) : (load dump).run = none ↔ dump.Endless := by
  unfold load Dump.Endless
  split
  · next hversion =>
      rw [and_iff_right hversion, ExceptT.run_bind, bind_eq_none_iff_of_ne, mapM_run_eq_none]
      · simp only [context_accepts, context_eq_none]
      · rintro (_ | _) <;> nofun
  · next hother => exact iff_of_false nofun fun h => hother h.1

/-- The second of two listed methods has a candidate that leads back to itself, and it is the key of
the first. -/
theorem endless_circle : ∃ dump : Dump Int,
    (dump.contexts.map fun dumped => dumped.methods.map (·.method)) =
      [[⟨⟨.plain, "A"⟩, "6CRAJBVnfDR"⟩, ⟨⟨.plain, "A"⟩, "PU$iDIdikCl"⟩]] ∧
    dump.faults = [] ∧ dump.Endless := by
  let listed (member : String) : DumpedMethod Int :=
    ⟨0, ⟨⟨.plain, "A"⟩, member⟩, none, .empty, false, false, false, []⟩
  refine ⟨⟨dumpVersion, programVersion, .wallTime,
    [⟨1, 0, [listed "6CRAJBVnfDR", listed "PU$iDIdikCl"], []⟩]⟩, rfl, by decide, ?_⟩
  rw [← Searching.load_eq_none, ← Option.isNone_iff_eq_none]
  decide +kernel

end CallLedger
