import Stylesheet.Proofs.Changes
import Stylesheet.Proofs.Determined

/-!
# No written form is stale

A node keeps the written form of its text next to the text, and the two can come apart.
`Document.IsFresh` says that they have not. Assembly makes fresh nodes (`isFresh_of_parse`), and a
node stays fresh as long as its layout is written by key or without touching the written forms: a
setting drops the one that belonged to the old text, and no other change writes any. So a document
that was read or started empty stays fresh (`caches_of_run`). An overwritten kind leaves a written
form behind, which is why it is left out.
-/

namespace Stylesheet

/-! ## Layouts -/

namespace Raws

/-- `KeepsCaches f` says that `f` keeps every written form or drops it. -/
def KeepsCaches (f : Raws → Raws) : Prop :=
  ∀ r raw, (f r).cache raw = r.cache raw ∨ (f r).cache raw = none

/-- How a layout is rewritten without assigning a written form: by a text under a key, by dropping
what is under a key, or by assigning other raws. -/
inductive Writes : (Raws → Raws) → Prop where
  | set (key : String) (text : Text) : Writes (·.set key text)
  | remove (key : String) : Writes (·.remove key)
  | assign {f} (h : ∀ r raw, (f r).cache raw = r.cache raw) : Writes f

theorem keepsCaches_set (key : String) (text : Text) : KeepsCaches (·.set key text) := by
  intro r raw
  refine .inl ?_
  simp only [set]
  split
  · exact cache_withText _ _ _ _
  · cases raw <;> rfl

theorem cache_withCache_of_ne (r : Raws) {raw other : CachedRaw} (cache : Option RawValue)
    (h : other ≠ raw) : (r.withCache raw cache).cache other = r.cache other := by
  cases raw <;> cases other <;> simp [withCache, Raws.cache] at h ⊢

theorem keepsCaches_remove (key : String) : KeepsCaches (·.remove key) := by
  intro r raw
  simp only [remove]
  split
  · exact .inl (cache_withText _ _ _ _)
  · split
    · exact .inl (by cases raw <;> rfl)
    · split
      · next dropped _ =>
          by_cases h : raw = dropped
          · exact .inr (h ▸ cache_withCache_self _ _ _)
          · exact .inl (cache_withCache_of_ne _ _ h)
      · exact .inl (by cases raw <;> rfl)

theorem Writes.keepsCaches {f : Raws → Raws} (h : Writes f) : KeepsCaches f := by
  cases h with
  | set key text => exact keepsCaches_set key text
  | remove key => exact keepsCaches_remove key
  | assign h => exact fun r raw ↦ .inl (h r raw)

end Raws

/-! ## Nodes -/

namespace Node

/-- A written form is stale if it belongs to another text than the node has. -/
theorem staleCache_eq_none_iff {n : Node} : n.staleCache = none ↔
    ∀ raw text cached, n.cacheOf = some (raw, text) → n.raws.cache raw = some cached →
      cached.value = text := by
  unfold staleCache
  cases hcache : n.cacheOf with
  | none => simp
  | some entry =>
      obtain ⟨own, expected⟩ := entry
      simp only [Option.some.injEq, Prod.mk.injEq, ite_eq_left_iff, reduceCtorEq, imp_false,
        Decidable.not_not, Option.all_eq_true, decide_eq_true_iff]
      constructor
      · rintro h raw text cached ⟨rfl, rfl⟩ hcached
        exact h cached hcached
      · exact fun h cached hcached ↦ h own expected cached ⟨rfl, rfl⟩ hcached

theorem staleCache_mapRaws {n : Node} {f : Raws → Raws} (hf : Raws.KeepsCaches f)
    (hn : n.staleCache = none) : (n.mapRaws f).staleCache = none := by
  rw [staleCache_eq_none_iff] at hn ⊢
  intro raw text cached hcache hcached
  have hcache : n.cacheOf = some (raw, text) := hcache
  have hcached : (f n.raws).cache raw = some cached := hcached
  rcases hf n.raws raw with hkept | hdropped
  · exact hn raw text cached hcache (hkept.symm.trans hcached)
  · rw [hdropped] at hcached
    cases hcached

theorem staleCache_ofKind (kind : Kind) : (ofKind kind).staleCache = none := by
  cases kind <;> rfl

/-- No change of a node makes its written form stale, if no written form is assigned. -/
theorem Change.staleCache {n m : Node} (h : n.Change Raws.KeepsCaches m)
    (hn : n.staleCache = none) : m.staleCache = none := by
  cases h with
  | parent | children | origin => exact hn
  | layout hf => exact staleCache_mapRaws hf hn
  | forgetPlace => exact staleCache_mapRaws (fun r raw ↦ .inl (by cases raw <;> rfl)) hn
  | damage => exact staleCache_mapRaws (fun r raw ↦ .inl (by cases raw <;> rfl)) hn
  | assign hset => exact staleCache_set? hset hn

end Node

/-! ## Documents -/

/-- All nodes of a document are fresh, detached ones included. -/
def Document.IsFresh (doc : Document) : Prop := ∀ id, (doc.node id).staleCache = none

theorem Document.IsFresh.change {doc other : Document} (h : doc.Change Raws.KeepsCaches other)
    (hdoc : doc.IsFresh) : other.IsFresh :=
  h.forall_node Node.staleCache_ofKind Node.Change.staleCache hdoc

theorem Document.IsFresh.staleCaches {doc : Document} (h : doc.IsFresh) :
    doc.staleCaches = [] := by
  refine List.filterMap_eq_nil_iff.mpr fun id _ ↦ ?_
  rw [h id]
  rfl

/-- Reading makes fresh nodes, in either mode. -/
theorem isFresh_of_parse {source : Source} {mode : Mode} {doc : Document}
    (h : parse source mode = .ok doc) : doc.IsFresh := by
  obtain ⟨a, hassemble, rfl⟩ := parse_eq_ok.mp h
  have hmade := Assembly.isMade_of_assemble hassemble
  obtain ⟨-, -, hroot, hnodes⟩ := hmade.unfolds_document
  -- Neither the links nor the damage of a node matter for what it keeps.
  have hstale (n : Node) : n.unlinked.undamaged.staleCache = n.staleCache := rfl
  intro id
  by_cases hne : id = Document.root
  · rw [hne, ← hstale, hroot, hstale]
    exact hmade.current.fresh
  · by_cases hlt : id < a.document.size
    · have hfresh : ((Forest.ofRev a.current.earlier).map Node.unlinked).map
          Node.undamaged |>.Each
          fun n _ ↦ n.staleCache = none := by
        rw [Forest.each_map, Forest.each_map]
        exact hmade.current.earlier.imp fun n _ hn ↦ (hstale n).trans hn.fresh
      rw [← hnodes, Forest.each_map, Forest.each_map] at hfresh
      exact Forest.Each.forall_mem (P := fun n : Node ↦ n.staleCache = none) hfresh id
        (hmade.mem_numbers hne hlt)
    · rw [Document.node_of_size_le (Nat.le_of_not_lt hlt)]
      rfl

theorem isFresh_empty : Document.empty.IsFresh := by
  intro id
  cases id with
  | zero => rfl
  | succ id =>
      rw [Document.node_of_size_le (Nat.le_add_left 1 id)]
      rfl

/-! ## Commands -/

/-- `c.KeepsCaches` says that a command neither overwrites a kind nor assigns a written form. -/
def Command.KeepsCaches : Command → Prop
  | setKind .. => False
  | setRaws _ f => Raws.Writes f
  | _ => True

namespace Command

variable {command : Command}

theorem KeepsCaches.setsKind (h : command.KeepsCaches) : command.setsKind = false := by
  cases command with
  | setKind id kind => exact h.elim
  | _ => rfl

theorem KeepsCaches.of_writes (h : command.KeepsCaches) {f : Raws → Raws}
    (hf : command.Writes f) : Raws.KeepsCaches f := by
  cases command with
  | setRaws id g =>
      cases hf
      exact Raws.Writes.keepsCaches h
  | cleanRaws id keepBetween =>
      cases hf
      exact fun r raw ↦ .inl (by cases raw <;> rfl)
  | _ => exact hf.elim

end Command

/-- No written form goes stale: in a document that was read or started empty and has then been
edited without overwriting a kind or assigning a written form, every one that belongs to the kind
of its node has the text of the node, so that the check for stale ones finds nothing. -/
theorem caches_of_run {start : Document}
    (hstart : start = .empty ∨ ∃ source mode, parse source mode = .ok start)
    (commands : List Command) (hcommands : ∀ command ∈ commands, command.KeepsCaches) :
    let doc := Command.run commands start
    (∀ id raw text cached, (doc.node id).cacheOf = some (raw, text) →
      (doc.node id).raws.cache raw = some cached → cached.value = text) ∧
        doc.staleCaches = [] := by
  have hlinked := isLinked_of_start hstart
  have hfresh : start.IsFresh := by
    rcases hstart with rfl | ⟨source, mode, hparse⟩
    · exact isFresh_empty
    · exact isFresh_of_parse hparse
  have hchanges := Command.changes_run_of_writes hlinked
    (fun command hmem ↦ (hcommands command hmem).setsKind)
    fun command hmem _ ↦ (hcommands command hmem).of_writes
  have hfresh := hchanges.keeps Document.IsFresh.change hfresh
  exact ⟨fun id ↦ Node.staleCache_eq_none_iff.mp (hfresh id), hfresh.staleCaches⟩

/-- A value that was read with a comment in it keeps its written form through a copy, and loses it
to another value. -/
theorem caches_of_copied_value :
    ∃ start, parse ⟨"a\x7b b: c/*d*/ e \x7d".toList, none⟩ .strict = .ok start ∧
      (start.node 2).raws.value ≠ none ∧
      (Command.run [.copy 1, .append 0 3, .assign 2 (.value ['f']),
        .setRaws 4 (·.set "value.raw" ['g'])] start).staleCaches = [] := by
  have h {start : Document}
      (hparse : parse ⟨"a\x7b b: c/*d*/ e \x7d".toList, none⟩ .strict = .ok start) :
      (Command.run [.copy 1, .append 0 3, .assign 2 (.value ['f']),
        .setRaws 4 (·.set "value.raw" ['g'])] start).staleCaches = [] := by
    refine (caches_of_run (.inr ⟨_, _, hparse⟩) _ ?_).2
    simp only [List.forall_mem_cons]
    exact ⟨trivial, trivial, trivial, .set _ _, List.forall_mem_nil _⟩
  exact ⟨_, rfl, by decide, h rfl⟩

end Stylesheet
