import PointsTo.Proofs.Requests

/-!
Nothing that an edge has to carry gets lost, whatever is asked of an analysis. What the source of an
edge has, its target has or is about to get: after requests in any order, and also where a fault has
left a request half done.
-/
namespace PointsTo.Solver

open Relation (ReflTransGen)

/-- What every request keeps. -/
structure Forwarding (s : State) : Prop where
  orderly : s.Orderly
  flowing : Flowing s

section Forwarding

variable {p : Program} {entry : Option Method} {s t : State}

theorem Forwarding.asked (h : Forwarding s) (asked : Asked s t) : Forwarding t :=
  ⟨asked.toActed.orderly h.orderly, asked.flowing h.flowing⟩

theorem Forwarding.moves (h : Forwarding s) (run : ReflTransGen (Move p) s t) : Forwarding t :=
  ⟨moves_keep (fun _ _ => Move.orderly) run h.orderly,
    moves_keep (fun _ _ => Move.flowing) run h.flowing⟩

/-- Steps keep it for any trigger, be it allowed or not. -/
theorem Forwarding.acts {c : Trigger} {n : Nat} (h : Forwarding s) (acts : Acts p c n s t) :
    Forwarding t := by
  obtain ⟨steps, -⟩ := acts
  induction steps with
  | refl => exact h
  | tail _ step ih => exact ⟨step.acted.orderly ih.orderly, step.flowing ih.flowing⟩

theorem Forwarding.propagate (h : Forwarding s) (q : Pointer) (objects : ObjectSet) :
    Forwarding (s.propagate q objects).2 := by
  obtain ⟨-, hcalls, -, hpending, -⟩ := State.propagate_frame s q objects
  refine ⟨⟨?_, ?_⟩, flowing_propagate fun e he o ho => .inl (h.flowing e he o ho)⟩
  · rw [hpending]
    exact h.orderly.nodup
  · rw [hpending, hcalls]
    exact h.orderly.reached

theorem Forwarding.start (h : Forwarding s) : Forwarding (s.start p entry).state := by
  cases entry with
  | none => exact h
  | some m =>
    by_cases hasBody : m.body.isSome
    · rw [start_eq_settle hasBody]
      have hopened := h.asked (.opened s m.id)
      exact hopened.moves (moves_settle p hopened.orderly)
    · rw [start_of_bodyless hasBody]
      exact h

theorem Forwarding.analyze (h : Forwarding s) : Forwarding (s.analyze p).state :=
  h.moves (moves_analyzeWithin (s.analyzeLimit p) h.orderly)

/-- Every request keeps what is on its way, also one that ends with a fault. -/
theorem Operation.forwards (op : Operation) (h : Forwarding s) :
    Forwarding (op.perform p entry s).state := by
  cases op with
  | node q => exact h.asked (.touch s q)
  | static f => exact h.asked ((Asked.touch s _).trans (.of_agrees (State.agrees_touchStatic s f)))
  | object a => exact h.asked (.allocate s a)
  | start => exact h.start
  | reach m => exact h.asked (.reach s m)
  | connect source target => exact h.asked (.flow s source target)
  | send q objects => exact h.asked ((Asked.touch s q).trans (.send _ q objects))
  | propagate q objects => exact (h.asked (.touch s q)).propagate q objects
  | processCalls v o => exact h.acts (acts_processCalls s v o)
  | analyze => exact h.analyze
  | solve =>
    refine andThen_keeps Forwarding (andThen_keeps Forwarding h.start fun t ht => ht.analyze) ?_
    exact fun t ht => ht.asked (.of_agrees (State.agrees_record t _))

theorem Operation.session_forwards (ops : List Operation) (h : Forwarding s) :
    Forwarding (session p entry ops s) := by
  induction ops generalizing s with
  | nil => exact h
  | cons op ops ih => exact ih (op.forwards h)

end Forwarding

/-- **After any requests, in any order and with any faults, each object at the source of an edge is
at its target or in a delivery that is queued for the target.** -/
theorem session_keeps_edges_flowing (p : Program) (entry : Option Method) (heap : Heap)
    (phantoms : PhantomFields) (log : Array Event) (ops : List Operation) (source target : Pointer)
    (edge : (source, target) ∈
      (Operation.session p entry ops { heap, phantoms, log }).graph.edges.items)
    (o : ObjectId)
    (mem : o ∈ ((Operation.session p entry ops { heap, phantoms, log }).pointsTo source).items) :
    o ∈ ((Operation.session p entry ops { heap, phantoms, log }).pointsTo target).items ∨
      ∃ d ∈ (Operation.session p entry ops { heap, phantoms, log }).work.toList,
        d.pointer = target ∧ o ∈ d.objects.items := by
  have fresh := State.fresh_initial heap phantoms log
  exact (Operation.session_forwards ops ⟨fresh.orderly, fresh.flowing⟩).flowing _ edge o mem

/-- An edge that is added when its source has an object already, and a fault before it. -/
def lateEdge : List Operation :=
  [.object ⟨.detached 0, "A"⟩, .propagate (.element 0) (OrderedSet.ofList [0]), .start,
    .connect (.element 0) (.element 1)]

theorem session_keeps_edges_flowing_lateEdge :
    (.element 0, .element 1) ∈ (Operation.session ∅ none lateEdge {}).graph.edges.items ∧
      0 ∈ ((Operation.session ∅ none lateEdge {}).pointsTo (.element 0)).items ∧
      (0 ∈ ((Operation.session ∅ none lateEdge {}).pointsTo (.element 1)).items ∨
        ∃ d ∈ (Operation.session ∅ none lateEdge {}).work.toList,
          d.pointer = .element 1 ∧ 0 ∈ d.objects.items) :=
  have edge : (.element 0, .element 1) ∈
      (Operation.session ∅ none lateEdge {}).graph.edges.items := by decide
  have mem : 0 ∈ ((Operation.session ∅ none lateEdge {}).pointsTo (.element 0)).items := by decide
  ⟨edge, mem, session_keeps_edges_flowing ∅ none ∅ ∅ #[] lateEdge _ _ edge 0 mem⟩

end PointsTo.Solver
