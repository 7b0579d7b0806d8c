import Stylesheet.Proofs.Blocks
import Stylesheet.Proofs.Walking

/-!
# Walking with a stack

An iterator over the nodes below a node holds a stack of those that it has still to visit. It
takes the last one off and puts its children there, the first of them last (`Document.pop?`).
Nothing bounds its steps. `Yields` says that it comes to its end, and what it has yielded by then.
Where the links below the nodes of a stack unfold to a forest, this is the forest in document
order (`yields_of_unfolds`).

`Forest.trails` lists the nodes of a forest together with the path that a recursion takes to them.
In a linked document this path is the chain of ancestors (`ancestors_of_mem_trails`).
`walk_of_run` puts the three views together for all documents that any run of commands has made.
-/

namespace Stylesheet

open Document (root)

/-- `f.trails above` lists the values of a forest in document order. Each one comes with those
above it, the nearest first, where `above` is above the tops. -/
def Forest.trails {α : Type} (above : List α) : Forest α → List (α × List α)
  | nil => []
  | cons value below rest =>
      (value, above) :: (below.trails (value :: above) ++ rest.trails above)

@[simp] theorem Forest.map_fst_trails {α : Type} (f : Forest α) (above : List α) :
    (f.trails above).map Prod.fst = f.toList := by
  induction f generalizing above with
  | nil => rfl
  | cons value below rest ihBelow ihRest =>
      rw [trails, List.map_cons, List.map_append, ihBelow, ihRest, toList]

namespace Document

variable {doc : Document} {id : NodeId}

/-! ## The iterator -/

/-- `doc.pop? stack` takes the last node off a stack and puts its children in its place, the first
one last. It is `none` where there is no node. -/
def pop? (doc : Document) (stack : List NodeId) : Option (NodeId × List NodeId) :=
  stack.getLast?.map fun id ↦ (id, stack.dropLast ++ (doc.children id).reverse)

/-- `doc.Yields stack ids` says that an iterator with this stack comes to its end and has yielded
`ids` then. -/
inductive Yields (doc : Document) : List NodeId → List NodeId → Prop where
  | done {stack} (h : doc.pop? stack = none) : Yields doc stack []
  | next {stack id rest ids} (h : doc.pop? stack = some (id, rest))
      (hrest : Yields doc rest ids) :
      Yields doc stack (id :: ids)

theorem Yields.unique {stack ids others : List NodeId} (h : doc.Yields stack ids)
    (hother : doc.Yields stack others) : ids = others := by
  induction h generalizing others with
  | done h =>
      cases hother with
      | done => rfl
      | next hnext => cases h.symm.trans hnext
  | next h _ ih =>
      cases hother with
      | done hdone => cases h.symm.trans hdone
      | next hnext hrest =>
          cases h.symm.trans hnext
          rw [ih hrest]

theorem pop?_concat (doc : Document) (stack : List NodeId) (id : NodeId) :
    doc.pop? (stack ++ [id]) = some (id, stack ++ (doc.children id).reverse) := by
  rw [pop?, List.getLast?_concat, List.dropLast_concat, Option.map_some]

/-- The nodes at the end of a stack are yielded with all that is below them before the others
are. -/
theorem yields_of_unfolds {ids : List NodeId} {f : Forest NodeId} (h : doc.Unfolds ids f)
    {stack behind : List NodeId} (hstack : doc.Yields stack behind) :
    doc.Yields (stack ++ ids.reverse) (f.toList ++ behind) := by
  induction h generalizing stack behind with
  | nil => rwa [List.reverse_nil, List.append_nil]
  | cons id ids below rest _ _ ihBelow ihRest =>
      have hrest := ihRest hstack
      rw [List.reverse_cons, ← List.append_assoc, Forest.toList, List.cons_append,
        List.append_assoc below.toList]
      exact .next (doc.pop?_concat _ id) (ihBelow hrest)

/-! ## The recursion -/

/-- A forest in document order is what is at its tops, each with a walk of its own behind it. -/
theorem IsLinked.toList_of_unfolds (h : doc.IsLinked) {ids : List NodeId} {f : Forest NodeId}
    (hf : doc.Unfolds ids f) : f.toList = ids.flatMap fun id ↦ id :: doc.walk id := by
  induction hf with
  | nil => rfl
  | cons id ids below rest hbelow _ _ ihRest =>
      rw [Forest.toList, List.flatMap_cons, ihRest, h.walk_eq id,
        hbelow.unique (h.unfolds_below id)]
      rfl

/-- A recursion comes to a node through its ancestors. -/
theorem IsLinked.ancestors_of_mem_trails (h : doc.IsLinked) {ids above : List NodeId}
    {f : Forest NodeId} (hf : doc.Unfolds ids f) (habove : ∀ id ∈ ids, doc.ancestors id = above) :
    ∀ entry ∈ f.trails above, doc.ancestors entry.1 = entry.2 := by
  induction hf generalizing above with
  | nil => exact List.forall_mem_nil _
  | cons id ids below rest _ _ ihBelow ihRest =>
      obtain ⟨hid, hids⟩ := List.forall_mem_cons.mp habove
      refine List.forall_mem_cons.mpr ⟨hid,
        List.forall_mem_append.mpr ⟨ihBelow fun child hchild ↦ ?_, ihRest hids⟩⟩
      rw [h.ancestors_of_parent (h.mem_children_iff.mp hchild), hid]

end Document

/-- Walking below a node of a document that was read or started empty and has then been edited in
any way. The iterator comes to its end. It has then yielded the nodes that have the given one
above them, none of them twice, and in the order of a recursion that goes to each child and to
what is below it. The recursion comes to each node through its ancestors, so that the depth is
counted along its path. A node is attached if it is the root or below it. -/
theorem walk_of_run {start : Document}
    (hstart : start = .empty ∨ ∃ source mode, parse source mode = .ok start)
    (commands : List Command) :
    let doc := Command.run commands start
    (∀ id, (∀ ids, doc.Yields (doc.children id).reverse ids ↔ ids = doc.walk id) ∧
      (doc.walk id).Nodup ∧
      (∀ other, other ∈ doc.walk id ↔ doc.Ancestor id other) ∧
      doc.walk id = (doc.children id).flatMap (fun child ↦ child :: doc.walk child) ∧
      ∃ f, doc.Unfolds (doc.children id) f ∧
      (f.trails (id :: doc.ancestors id)).map Prod.fst = doc.walk id ∧
        ∀ other path, (other, path) ∈ f.trails (id :: doc.ancestors id) →
          doc.ancestors other = path ∧ doc.depth other = path.countP (doc.type · ≠ .root)) ∧
    (∀ id, doc.isAttached id = true ↔ id = root ∨ id ∈ doc.walk root) ∧
    doc.ancestors root = [] := by
  intro doc
  have h : doc.IsLinked := Command.isLinked_run (isLinked_of_start hstart) commands
  refine ⟨fun id ↦ ?_, fun id ↦ ?_, h.ancestors_root⟩
  · have hunfolds := h.unfolds_below id
    have hyields : doc.Yields (doc.children id).reverse (doc.walk id) := by
      have hdone : doc.Yields [] [] := .done rfl
      have hall := Document.yields_of_unfolds hunfolds hdone
      rwa [List.nil_append, List.append_nil, ← h.walk_eq] at hall
    refine ⟨fun ids ↦ ⟨fun hids ↦ hids.unique hyields, fun heq ↦ heq ▸ hyields⟩, ?_,
      fun other ↦ h.mem_walk_iff, ?_, doc.below id, hunfolds, ?_, fun other path hmem ↦ ?_⟩
    · rw [h.walk_eq]
      exact h.nodup_below id
    · rw [h.walk_eq]
      exact h.toList_of_unfolds hunfolds
    · rw [Forest.map_fst_trails, h.walk_eq]
    · have hpath : doc.ancestors other = path :=
        h.ancestors_of_mem_trails hunfolds
          (fun child hchild ↦ h.ancestors_of_parent (h.mem_children_iff.mp hchild))
          _ hmem
      exact ⟨hpath, by rw [Document.depth, hpath]⟩
  · rw [h.isAttached_iff, h.mem_walk_iff]

/-- A rule that was removed is walked alone, and what is in it is no longer attached. -/
theorem walk_of_run_removed :
    ∃ start, parse ⟨"@a\x7bb\x7bc:d\x7d\x7de\x7b\x7d".toList, none⟩ .strict = .ok start ∧
      (Command.run [.remove 2] start).Yields [4, 1] [1, 4] ∧
      (Command.run [.remove 2] start).Yields [3] [3] ∧
      (Command.run [.remove 2] start).isAttached 3 = false := by
  have h (source : Source) {start : Document} (hparse : parse source .strict = .ok start)
      (hroot : (Command.run [.remove 2] start).children root = [1, 4])
      (hrule : (Command.run [.remove 2] start).children 2 = [3])
      (hwalk : (Command.run [.remove 2] start).walk root = [1, 4])
      (hbelow : (Command.run [.remove 2] start).walk 2 = [3]) :
      (Command.run [.remove 2] start).Yields [4, 1] [1, 4] ∧
        (Command.run [.remove 2] start).Yields [3] [3] ∧
        (Command.run [.remove 2] start).isAttached 3 = false := by
    obtain ⟨hwalks, hattached, -⟩ := walk_of_run (.inr ⟨source, .strict, hparse⟩) [.remove 2]
    have htop := ((hwalks root).1 [1, 4]).mpr hwalk.symm
    have hunder := ((hwalks 2).1 [3]).mpr hbelow.symm
    rw [hroot] at htop
    rw [hrule] at hunder
    refine ⟨htop, hunder, Bool.eq_false_iff.mpr fun hthree ↦ ?_⟩
    have hmem := (hattached 3).mp hthree
    rw [hwalk] at hmem
    exact absurd hmem (by decide)
  exact ⟨_, rfl, h ⟨"@a\x7bb\x7bc:d\x7d\x7de\x7b\x7d".toList, none⟩ rfl rfl rfl rfl rfl⟩

end Stylesheet
