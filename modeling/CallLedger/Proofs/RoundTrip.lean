import CallLedger.Proofs.ExactAmount
import CallLedger.Proofs.Reachable
import CallLedger.Proofs.Relisting

/-!
# A dump that is loaded is dumped as it was

What recording, merging and loading leave behind is in good order
(`Context.Filed`). A profile in good order can be loaded from its dump, and the
dump of what was loaded is the same: the methods get their keys again because
a registry has grown, and the nodes are listed as they were. So one loading
puts right whatever a dump may hold, two records of one method, two siblings of
one method, rows of one key, and a second one changes nothing.
-/

namespace CallLedger

variable {α : Type}

/-! ## Profiles -/

namespace Profile

variable [Amount α]

theorem continues_loadNode {ids : Array MethodId} {profile after : Profile α}
    {node : DumpedNode α} (h : loadNode ids profile node = .ok after) :
    Continues profile after := by
  obtain ⟨method, -, hparent, rfl⟩ := loadNode_eq_ok.mp h
  exact (continues_attach method node.site hparent).trans
    (continues_modifyNode (fun _ => rfl) fun _ => rfl)

/-- Whatever list is loaded, the profile is in good order. -/
theorem filed_of_load {methods : List (DumpedMethod α)} {nodes : List (DumpedNode α)}
    {profile : Profile α} (h : ofDump methods nodes = .ok profile) : profile.Filed := by
  have hentries := Registry.entries_ofDump methods
  exact ofDump_keeps (fun _ current => current.Filed)
    ⟨hentries.grown, hentries.tidy,
      fun hid => absurd (CallTree.node?_lt hid) (Nat.not_lt_zero _), CallTree.filed_empty⟩
    (fun hcurrent hnext => (continues_loadNode hnext).filed hcurrent) h

/-- A profile in good order can be loaded from its dump, which lists all that there is. -/
theorem Filed.loaded {profile : Profile α} (h : profile.Filed) :
    ∃ after, ofDump (profile.methods.records.toList.map DumpedMethod.ofRecord)
        profile.dumpNodes = .ok after ∧ Loaded profile.methods profile.dumpNodes after := by
  have hrestores := h.grown.sound.restores
  have hstart : Loaded profile.methods [] ⟨(Registry.ofDump (profile.methods.records.toList.map
      DumpedMethod.ofRecord)).1, .empty⟩ := by
    refine ⟨sound_unlinked hrestores.sound fun hid => ?_,
      h.grown.restored_names (Registry.entries_ofDump _).grown hrestores,
      h.grown.relisted h.tidy, rfl⟩
    obtain ⟨record, -, key, rfl⟩ := hrestores.of_restored hid
    rfl
  exact hstart.foldlM_loadNode (fun hi => hrestores.ids (by
    rw [Array.length_toList]
    exact hi)) (loadable_dumpNodes h)

/-- A profile in good order comes back from its dump, and is dumped as before. -/
theorem Filed.reloaded {profile : Profile α} (h : profile.Filed) :
    ∃ after, ofDump (profile.methods.records.toList.map DumpedMethod.ofRecord)
        profile.dumpNodes = .ok after ∧
      after.methods.records.toList.map DumpedMethod.ofRecord =
        profile.methods.records.toList.map DumpedMethod.ofRecord ∧
      after.dumpNodes = profile.dumpNodes := by
  obtain ⟨after, hload, hloaded⟩ := h.loaded
  exact ⟨after, hload, hloaded.records, hloaded.dumpNodes_eq h⟩

end Profile

/-! ## Contexts -/

namespace DumpedContext

variable [Amount α]

theorem toContext_eq_ok {dumped : DumpedContext α} {loaded : Context α} :
    dumped.toContext = .ok loaded ↔ ∃ profile,
      Profile.ofDump dumped.methods dumped.nodes = .ok profile ∧
        loaded = .settled ⟨dumped.thread, dumped.fiber⟩ profile := by
  unfold toContext
  cases Profile.ofDump dumped.methods dumped.nodes with
  | error error =>
      constructor
      · intro h
        cases h
      · rintro ⟨profile, h, -⟩
        cases h
  | ok profile =>
      constructor
      · intro h
        cases h
        exact ⟨profile, rfl, rfl⟩
      · rintro ⟨_, h, rfl⟩
        cases h
        rfl

theorem filed_of_load {dumped : DumpedContext α} {loaded : Context α}
    (h : dumped.toContext = .ok loaded) :
    loaded.traced = true ∧ loaded.stack.frames = [] ∧ loaded.Filed := by
  obtain ⟨profile, hload, rfl⟩ := toContext_eq_ok.mp h
  exact ⟨rfl, rfl, Profile.filed_of_load hload, fun _ hcall => absurd hcall List.not_mem_nil⟩

theorem toContext_ofContext {context : Context α} (h : context.profile.Filed) :
    ∃ loaded, (ofContext context).toContext = .ok loaded ∧ loaded.traced = true ∧
      ofContext loaded = ofContext context := by
  obtain ⟨after, hload, hmethods, hnodes⟩ := h.reloaded
  refine ⟨_, toContext_eq_ok.mpr ⟨after, hload, rfl⟩, rfl, ?_⟩
  unfold ofContext Context.settled
  rw [hmethods, hnodes]

end DumpedContext

/-! ## Sessions -/

namespace Session

/-- A session that is made of traced contexts holds these, in their order. -/
theorem threads_ofContexts (mode : MeasureMode) {contexts : List (Context α)}
    (h : ∀ context ∈ contexts, context.traced = true) :
    (ofContexts mode contexts).threads.map (·.2) = contexts := by
  have hlive : (ofContexts mode contexts).contexts.live.map (·.2) = contexts :=
    ContextTable.live_foldl_insert
  have hall : ∀ entry ∈ (ofContexts mode contexts).contexts.live, entry.2.traced = true := by
    intro entry hentry
    refine h _ ?_
    rw [← hlive]
    exact List.mem_map_of_mem hentry
  unfold threads ContextTable.traced
  rw [List.filter_eq_self.mpr hall, hlive]

/-- The dump of what was loaded. -/
theorem dump_ofContexts (mode : MeasureMode) {contexts : List (Context α)}
    (h : ∀ context ∈ contexts, context.traced = true) :
    (ofContexts mode contexts).dump =
      ⟨dumpVersion, programVersion, mode, contexts.map .ofContext⟩ := by
  have hcontexts : ((ofContexts mode contexts).threads.map fun entry =>
      DumpedContext.ofContext entry.2) = contexts.map .ofContext := by
    have hsame := congrArg (List.map DumpedContext.ofContext) (threads_ofContexts mode h)
    rw [List.map_map] at hsame
    exact hsame
  unfold dump
  rw [hcontexts]
  rfl

variable [Amount α]

theorem ofDump_eq_ok {dump : Dump α} {loaded : Session α} :
    ofDump dump = .ok loaded ↔ dump.version = dumpVersion ∧ ∃ contexts,
      dump.contexts.mapM DumpedContext.toContext = .ok contexts ∧
        loaded = ofContexts dump.measureMode contexts := by
  unfold ofDump
  split
  · next hversion =>
      cases dump.contexts.mapM DumpedContext.toContext with
      | error error =>
          constructor
          · intro h
            cases h
          · rintro ⟨-, _, h, -⟩
            cases h
      | ok contexts =>
          constructor
          · intro h
            cases h
            exact ⟨hversion, contexts, rfl, rfl⟩
          · rintro ⟨-, _, h, rfl⟩
            cases h
            rfl
  · next hversion =>
      constructor
      · intro h
        cases h
      · rintro ⟨h, -⟩
        exact absurd h hversion

/-- Contexts in good order are loaded from their dumps, each of them. -/
theorem mapM_toContext : ∀ {contexts : List (Context α)},
    (∀ context ∈ contexts, context.profile.Filed) →
    ∃ loaded, (contexts.map DumpedContext.ofContext).mapM DumpedContext.toContext = .ok loaded ∧
      (∀ context ∈ loaded, context.traced = true) ∧
      loaded.map DumpedContext.ofContext = contexts.map DumpedContext.ofContext := by
  intro contexts
  induction contexts with
  | nil => intro _; exact ⟨[], rfl, nofun, rfl⟩
  | cons context contexts ih =>
      intro h
      obtain ⟨first, hfirst, htraced, hsame⟩ :=
        DumpedContext.toContext_ofContext (h context List.mem_cons_self)
      obtain ⟨rest, hrest, htracedRest, hsameRest⟩ :=
        ih fun later hlater => h later (List.mem_cons_of_mem _ hlater)
      refine ⟨first :: rest, ?_, ?_, ?_⟩
      · rw [List.map_cons, List.mapM_cons, hfirst, hrest]
        rfl
      · intro later hlater
        rcases List.mem_cons.mp hlater with rfl | hmem
        · exact htraced
        · exact htracedRest later hmem
      · rw [List.map_cons, List.map_cons, hsame, hsameRest]

/-- What a session holds of contexts in good order can be dumped, loaded and dumped again. -/
theorem reloaded_dump {session : Session α}
    (h : ∀ entry ∈ session.threads, entry.2.profile.Filed) :
    ∃ loaded, ofDump session.dump = .ok loaded ∧ loaded.dump = session.dump := by
  have hcontexts : session.dump.contexts =
      (session.threads.map (·.2)).map DumpedContext.ofContext := by
    rw [List.map_map]
    rfl
  have hfiled : ∀ context ∈ session.threads.map (·.2), context.profile.Filed := by
    intro context hcontext
    obtain ⟨entry, hentry, rfl⟩ := List.mem_map.mp hcontext
    exact h entry hentry
  obtain ⟨contexts, hload, htraced, hsame⟩ := mapM_toContext hfiled
  refine ⟨ofContexts session.dump.measureMode contexts,
    ofDump_eq_ok.mpr ⟨rfl, contexts, hcontexts ▸ hload, rfl⟩, ?_⟩
  rw [dump_ofContexts _ htraced, hsame, ← hcontexts]
  rfl

/-- What was loaded holds the contexts of the dump, in their order. -/
theorem threads_of_load {dump : Dump α} {loaded : Session α} (h : ofDump dump = .ok loaded) :
    dump.contexts.mapM DumpedContext.toContext = .ok (loaded.threads.map (·.2)) := by
  obtain ⟨-, contexts, hcontexts, rfl⟩ := ofDump_eq_ok.mp h
  rw [hcontexts, threads_ofContexts dump.measureMode fun context hcontext => ?_]
  obtain ⟨dumped, -, hload⟩ := mem_of_mapM hcontexts context hcontext
  exact (DumpedContext.filed_of_load hload).1

/-- Whatever dump is accepted, the contexts that it gives are in good order. -/
theorem filed_of_load {dump : Dump α} {loaded : Session α} (h : ofDump dump = .ok loaded) :
    ∀ entry ∈ loaded.threads, entry.2.profile.Filed := by
  intro entry hentry
  obtain ⟨dumped, -, hload⟩ :=
    mem_of_mapM (threads_of_load h) entry.2 (List.mem_map_of_mem hentry)
  obtain ⟨-, -, hgood⟩ := DumpedContext.filed_of_load hload
  exact hgood.profile

theorem survives_filed (dumps : Phase → Prop) :
    Survives (fun _ (context : Context α) => context.Filed) dumps := by
  intro phase exclusions context loaded _ _ _ hload
  obtain ⟨-, hframes, hfiled⟩ := DumpedContext.filed_of_load hload
  exact ⟨hfiled, hframes⟩

theorem Reachable.filed {dumps : Phase → Prop} {session : Session α}
    (h : Reachable dumps session) : session.contexts.Everywhere fun _ context => context.Filed := by
  obtain ⟨excluded, hlawful⟩ :=
    h.lawful Context.law_filed (survives_filed dumps)
  exact hlawful.contexts

/-- The dump of any session that can come about is loaded again, and the dump of what was
loaded is the same; and so it is for whatever other dump can be loaded, from then on. -/
theorem dump_round_trip (dumps : Phase → Prop) :
    (∀ session : Session α, Reachable dumps session →
      ∃ loaded, ofDump session.dump = .ok loaded ∧ loaded.dump = session.dump) ∧
    ∀ (dump : Dump α) (loaded : Session α), ofDump dump = .ok loaded →
      ∃ again, ofDump loaded.dump = .ok again ∧ again.dump = loaded.dump := by
  refine ⟨fun session h => reloaded_dump fun entry hentry => ?_,
    fun dump loaded h => reloaded_dump (filed_of_load h)⟩
  exact (h.filed _ _ (ContextTable.mem_live.mp (List.mem_filter.mp hentry).1)).profile

/-- A run that ends in the middle of a recursion; and a dump with two records of one method
and two roots for it, of which the second is kept, with its child. -/
theorem dump_round_trip_doubled :
    (∃ loaded, ofDump ((unconfigured : Session Int).run
        [.start 0, .event ((Event.call ⟨.owner .plain, "A"⟩ "f").sampled 10),
          .event ((Event.call ⟨.owner .plain, "A"⟩ "g").sampled 15),
          .event ((Event.call ⟨.owner .plain, "A"⟩ "f").sampled 20)]).dump = .ok loaded ∧
      loaded.dump = ((unconfigured : Session Int).run
        [.start 0, .event ((Event.call ⟨.owner .plain, "A"⟩ "f").sampled 10),
          .event ((Event.call ⟨.owner .plain, "A"⟩ "g").sampled 15),
          .event ((Event.call ⟨.owner .plain, "A"⟩ "f").sampled 20)]).dump) ∧
    ∃ loaded : Session Int,
      ofDump ⟨dumpVersion, programVersion, .wallTime, [⟨1, 0,
        [⟨7, ⟨⟨.plain, "A"⟩, "f"⟩, none, ⟨5, 0, 5, 2⟩, false, true, false, []⟩,
          ⟨8, ⟨⟨.plain, "A"⟩, "f"⟩, none, ⟨0, 0, 0, 0⟩, false, true, false, []⟩,
          ⟨9, ⟨⟨.plain, "A"⟩, "g"⟩, none, ⟨0, 0, 0, 1⟩, false, false, false, []⟩],
        [⟨0, none, ⟨3, 0, 3, 1⟩, .none⟩, ⟨1, none, ⟨2, 0, 2, 1⟩, .none⟩,
          ⟨2, some 0, ⟨0, 0, 0, 1⟩, .none⟩, ⟨2, some 1, ⟨0, 0, 0, 1⟩, .none⟩]⟩]⟩ = .ok loaded ∧
      (loaded.dump.contexts.map fun context => context.nodes) =
        [[⟨0, none, ⟨2, 0, 2, 1⟩, .none⟩, ⟨1, some 0, ⟨0, 0, 0, 1⟩, .none⟩]] ∧
      ∃ again, ofDump loaded.dump = .ok again ∧ again.dump = loaded.dump := by
  refine ⟨(dump_round_trip fun _ => True).1 _ ((reachable_unconfigured _).run _), ?_⟩
  generalize hdump : (⟨dumpVersion, _, _, _⟩ : Dump Int) = dump
  have hshown : ((ofDump dump).toOption.map fun loaded =>
      loaded.dump.contexts.map fun context => context.nodes) =
        some [[⟨0, none, ⟨2, 0, 2, 1⟩, .none⟩, ⟨1, some 0, ⟨0, 0, 0, 1⟩, .none⟩]] := by
    rw [← hdump]
    decide +kernel
  cases hload : ofDump dump with
  | error error =>
      rw [hload] at hshown
      cases hshown
  | ok loaded =>
      rw [hload] at hshown
      exact ⟨loaded, rfl, Option.some.inj hshown, (dump_round_trip fun _ => True).2 _ _ hload⟩

end Session

end CallLedger
