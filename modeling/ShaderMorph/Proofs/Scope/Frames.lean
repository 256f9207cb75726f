-- Scopes as stacks of frames. A chain with marks in it stands for a stack: the
-- innermost frame on top, and in each frame its symbols, newest first. Every
-- step on a scope is a step on its stack, whichever of the scopes made so far
-- it is taken on, and all that a scope answers is told by its stack. In
-- particular the depth that a scope keeps apart never drifts from its marks.
import ShaderMorph.Proofs.Scope.Chain

namespace ShaderMorph

/-! ## Stacks of frames -/

/-- Frames one inside the other, the innermost one on top. The global frame is
always there, so there is no empty stack. Each frame has its symbols newest
first. -/
structure FrameStack where
  top : List Symbol
  below : List (List Symbol)
deriving DecidableEq, Repr

namespace FrameStack

/-- The global frame with nothing declared in it. -/
def bare : FrameStack := ⟨[], []⟩

/-- All frames, the innermost one first. -/
def frames (f : FrameStack) : List (List Symbol) := f.top :: f.below

def height (f : FrameStack) : Nat := f.frames.length

def push (f : FrameStack) : FrameStack := ⟨[], f.frames⟩

/-- Take the top frame off. The global frame stays when it is alone. -/
def pop (f : FrameStack) : FrameStack :=
  match f.below with
  | [] => f
  | next :: below => ⟨next, below⟩

/-- Put a symbol in the top frame, which gives it its depth. -/
def add (f : FrameStack) (s : Symbol) : FrameStack :=
  { f with top := { s with depth := f.height - 1 } :: f.top }

/-- Whether the top frame has a symbol of this name. -/
def hasName (f : FrameStack) (name : String) : Bool := f.top.any (·.name == name)

/-- Put a symbol in the top frame unless the frame has its name already. -/
def addNew (f : FrameStack) (s : Symbol) : FrameStack := if f.hasName s.name then f else f.add s

/-- The newest symbol of a name in the topmost frame that has one. -/
def find? (f : FrameStack) (name : String) : Option Symbol :=
  f.frames.findSome? fun frame => frame.find? (·.name = name)

end FrameStack

/-! ## Chains read as stacks -/

namespace ScopeEntry

/-- The stack that a chain stands for. -/
def stack : List ScopeEntry → FrameStack
  | [] => .bare
  | .frame :: es => (stack es).push
  | .binding s :: es => ⟨s :: (stack es).top, (stack es).below⟩

theorem top_stack (es : List ScopeEntry) : (stack es).top = innermost es := by
  induction es with
  | nil => rfl
  | cons x es ih =>
    cases x with
    | frame => rfl
    | binding s => exact congrArg (s :: ·) ih

/-- The frames hold the symbols of the chain, in the same order. -/
theorem flatten_stack (es : List ScopeEntry) : (stack es).frames.flatten = symbols es := by
  induction es with
  | nil => rfl
  | cons x es ih =>
    cases x with
    | frame => exact ih
    | binding s => exact congrArg (s :: ·) ih

/-- The newest binding in a chain is the newest one of the topmost frame that
has the name. -/
theorem find?_stack (name : String) (es : List ScopeEntry) :
    (stack es).find? name = ScopeTree.lookupIn name es := by
  induction es with
  | nil => rfl
  | cons x es ih =>
    cases x with
    | frame => exact ih
    | binding s =>
      rw [ScopeTree.lookupIn, ← ih]
      by_cases hs : s.name = name <;>
        simp [stack, FrameStack.find?, FrameStack.frames, List.findSome?_cons, hs]

namespace Framed

variable {es : List ScopeEntry} {d : Nat}

theorem height (h : Framed es d) : (stack es).height = d + 1 := by
  induction es generalizing d with
  | nil =>
    obtain rfl : d = 0 := h
    rfl
  | cons x es ih =>
    cases x with
    | frame =>
      obtain ⟨d, rfl, h⟩ := h
      exact congrArg (· + 1) (ih h)
    | binding s => exact ih h.2

/-- Each symbol has the number of frames that its frame lies on. -/
theorem depth_eq (h : Framed es d) {above below : List (List Symbol)} {frame : List Symbol}
    (hf : (stack es).frames = above ++ frame :: below) : ∀ s ∈ frame, s.depth = below.length := by
  induction es generalizing d above frame below with
  | nil =>
    cases above with
    | nil =>
      obtain ⟨rfl, -⟩ := List.cons.inj hf
      exact List.forall_mem_nil _
    | cons a above => simp [stack, FrameStack.bare, FrameStack.frames] at hf
  | cons x es ih =>
    cases x with
    | frame =>
      obtain ⟨d, rfl, h⟩ := h
      cases above with
      | nil =>
        obtain ⟨rfl, -⟩ := List.cons.inj hf
        exact List.forall_mem_nil _
      | cons a above => exact ih h (List.cons.inj hf).2
    | binding t =>
      have hheight := h.2.height
      cases above with
      | nil =>
        obtain ⟨rfl, hbelow⟩ := List.cons.inj hf
        obtain rfl : (stack es).below = below := hbelow
        have htop : (stack es).frames = [] ++ (stack es).top :: (stack es).below := rfl
        refine List.forall_mem_cons.2 ⟨?_, ih h.2 htop⟩
        rw [h.1]
        simp only [FrameStack.height, FrameStack.frames, List.length_cons] at hheight
        omega
      | cons a above =>
        have hframes : (stack es).frames = ((stack es).top :: above) ++ frame :: below :=
          congrArg ((stack es).top :: ·) (List.cons.inj hf).2
        exact ih h.2 hframes

/-- Below the global frame there is a mark to go back to. What is left behind
it stands for the stack without its top frame. -/
theorem exists_dropFrame (h : Framed es (d + 1)) :
    ∃ rest, ScopeTree.dropFrame? es = some rest ∧ Framed rest d ∧
      stack rest = (stack es).pop := by
  induction es with
  | nil => cases h
  | cons x es ih =>
    cases x with
    | frame =>
      obtain ⟨e, he, h⟩ := h
      obtain rfl := Nat.succ.inj he
      exact ⟨es, rfl, h, rfl⟩
    | binding s =>
      obtain ⟨rest, hrest, hframed, hstack⟩ := ih h.2
      refine ⟨rest, hrest, hframed, hstack.trans ?_⟩
      have hheight := h.2.height
      simp only [stack, FrameStack.pop]
      split
      · next hbelow => simp [FrameStack.height, FrameStack.frames, hbelow] at hheight
      · rfl

theorem pop_global (h : Framed es 0) : (stack es).pop = stack es := by
  have hheight := h.height
  simp only [FrameStack.height, FrameStack.frames, List.length_cons, Nat.add_right_cancel_iff,
    List.length_eq_zero_iff] at hheight
  simp [FrameStack.pop, hheight]

end Framed

end ScopeEntry

/-! ## What a scope stands for -/

namespace ScopeTree

/-- A scope and the stack that it stands for. -/
structure StandsFor (t : ScopeTree) (f : FrameStack) : Prop where
  stack : ScopeEntry.stack t.entries = f
  depth : t.depth = f.height - 1
  /-- A symbol has the depth of its frame, the height of the stack up to that
  frame without one. -/
  depths : ∀ above frame below, f.frames = above ++ frame :: below →
    ∀ s ∈ frame, s.depth = (frame :: below).length - 1
  lookup : ∀ name, t.lookup name = f.find? name
  lookupInCurrentFrame : ∀ name, t.lookupInCurrentFrame name = f.top.find? (·.name = name)
  binds : ∀ id, t.binds id = true ↔ ∃ frame ∈ f.frames, ∃ s ∈ frame, s.id = id
  /-- A declaration is refused exactly when the top frame has the name. -/
  declare : ∀ s, t.declare s =
    if f.hasName s.name then .error ⟨s.name, t.depth⟩ else .ok (t.shadow s)
  /-- Below the global frame, the mark to go back to is there. -/
  mark : t.isGlobal = false → ∃ rest, dropFrame? t.entries = some rest

/-- A scope with as many marks as its depth stands for a stack. -/
theorem standsFor_of_framed {t : ScopeTree} (h : ScopeEntry.Framed t.entries t.depth) :
    t.StandsFor (ScopeEntry.stack t.entries) := by
  have htop : ∀ name, t.lookupInCurrentFrame name =
      (ScopeEntry.stack t.entries).top.find? (·.name = name) := fun name => by
    rw [ScopeEntry.top_stack]
    exact lookupInFrame_eq_find? name t.entries
  refine ⟨rfl, ?_, fun above frame below hf => h.depth_eq hf, fun name => ?_, htop, fun id => ?_,
    fun s => ?_, fun hlocal => ?_⟩
  · rw [h.height, Nat.add_sub_cancel]
  · exact (ScopeEntry.find?_stack name t.entries).symm
  · rw [binds_iff, symbols, ← ScopeEntry.flatten_stack]
    simp only [List.mem_flatten]
    constructor
    · rintro ⟨s, ⟨frame, hframe, hs⟩, hid⟩
      exact ⟨frame, hframe, s, hs, hid⟩
    · rintro ⟨frame, hframe, s, hs, hid⟩
      exact ⟨s, ⟨frame, hframe, hs⟩, hid⟩
  · have hname : (t.lookupInCurrentFrame s.name).isSome =
        (ScopeEntry.stack t.entries).hasName s.name := by
      rw [htop, Bool.eq_iff_iff, List.find?_isSome]
      simp [FrameStack.hasName]
    simp only [ScopeTree.declare, hname]
  · obtain ⟨d, hd⟩ : ∃ d, t.depth = d + 1 :=
      Nat.exists_eq_succ_of_ne_zero (by simpa [isGlobal] using hlocal)
    rw [hd] at h
    obtain ⟨rest, hrest, -⟩ := h.exists_dropFrame
    exact ⟨rest, hrest⟩

/-- Closing a frame takes the top frame off the stack. -/
theorem exit_stack {t : ScopeTree} (h : ScopeEntry.Framed t.entries t.depth) :
    ScopeEntry.Framed t.exit.entries t.exit.depth ∧
      ScopeEntry.stack t.exit.entries = (ScopeEntry.stack t.entries).pop := by
  unfold exit
  split
  · next hglobal =>
    have hzero : t.depth = 0 := by simpa [isGlobal] using hglobal
    exact ⟨h, (hzero ▸ h).pop_global.symm⟩
  · next hlocal =>
    obtain ⟨d, hd⟩ : ∃ d, t.depth = d + 1 :=
      Nat.exists_eq_succ_of_ne_zero (by simpa [isGlobal] using hlocal)
    rw [hd] at h
    obtain ⟨rest, hrest, hframed, hstack⟩ := h.exists_dropFrame
    rw [hrest, hd]
    exact ⟨hframed, hstack⟩

end ScopeTree

/-! ## Histories -/

/-- A step that makes a scope out of one. -/
inductive ScopeStep
  | enter
  | exit
  | declare (s : Symbol)
  | shadow (s : Symbol)
deriving DecidableEq, Repr

namespace ScopeStep

/-- The scope after a step. A declaration that is refused leaves it as it is. -/
def onScope : ScopeStep → ScopeTree → ScopeTree
  | .enter, t => t.enter
  | .exit, t => t.exit
  | .declare s, t => (t.declare s).toOption.getD t
  | .shadow s, t => t.shadow s

/-- The stack after a step. -/
def onStack : ScopeStep → FrameStack → FrameStack
  | .enter, f => f.push
  | .exit, f => f.pop
  | .declare s, f => f.addNew s
  | .shadow s, f => f.add s

/-- Take steps one after the other, each on the thing with its number among
all that were made so far, and keep every thing that is made. A step on a
number that is not there yet makes nothing. -/
def history (act : ScopeStep → α → α) : (made : List α) → List (Nat × ScopeStep) → List α
  | made, [] => made
  | made, (n, step) :: steps => history act (made ++ made[n]?.toList.map (act step)) steps

/-- A step on a scope is the same step on its stack. -/
theorem onScope_stack (step : ScopeStep) {t : ScopeTree}
    (h : ScopeEntry.Framed t.entries t.depth) :
    ScopeEntry.Framed (step.onScope t).entries (step.onScope t).depth ∧
      ScopeEntry.stack (step.onScope t).entries =
        step.onStack (ScopeEntry.stack t.entries) := by
  have hshadow : ∀ s, ScopeEntry.stack (t.shadow s).entries =
      (ScopeEntry.stack t.entries).add s := fun s => by
    rw [FrameStack.add, h.height]
    rfl
  cases step with
  | enter => exact ⟨⟨t.depth, rfl, h⟩, rfl⟩
  | exit => exact ScopeTree.exit_stack h
  | declare s =>
    rw [onScope, (ScopeTree.standsFor_of_framed h).declare s, onStack, FrameStack.addNew]
    split
    · exact ⟨h, rfl⟩
    · exact ⟨⟨rfl, h⟩, hshadow s⟩
  | shadow s => exact ⟨⟨rfl, h⟩, hshadow s⟩

/-- The scopes of a history are those that the stacks of the same history
stand for, as long as those are that it starts from. -/
theorem history_stack (steps : List (Nat × ScopeStep)) {made : List ScopeTree}
    (h : ∀ t ∈ made, ScopeEntry.Framed t.entries t.depth) :
    (∀ t ∈ history onScope made steps, ScopeEntry.Framed t.entries t.depth) ∧
      (history onScope made steps).map (fun t => ScopeEntry.stack t.entries) =
        history onStack (made.map fun t => ScopeEntry.stack t.entries) steps := by
  induction steps generalizing made with
  | nil => exact ⟨h, rfl⟩
  | cons step steps ih =>
    obtain ⟨n, step⟩ := step
    have hnew : ∀ t ∈ made[n]?.toList, ScopeEntry.Framed t.entries t.depth :=
      fun t ht => h t (List.mem_of_getElem? (Option.mem_toList.1 ht))
    have hmade : ∀ t ∈ made ++ made[n]?.toList.map step.onScope,
        ScopeEntry.Framed t.entries t.depth := by
      simp only [List.forall_mem_append, List.forall_mem_map]
      exact ⟨h, fun t ht => (onScope_stack step (hnew t ht)).1⟩
    obtain ⟨hframed, hstack⟩ := ih hmade
    refine ⟨hframed, hstack.trans ?_⟩
    rw [history]
    congr 1
    rw [List.map_append, List.getElem?_map]
    congr 1
    cases hn : made[n]? with
    | none => rfl
    | some t =>
      have ht : t ∈ made[n]?.toList := by simp [hn]
      exact congrArg ([·]) (onScope_stack step (hnew t ht)).2

end ScopeStep

/-- Scopes refine stacks of frames. Whatever steps are taken from the empty
scope on, each on any scope made before, every scope stands for the stack that
the same steps make. -/
theorem ScopeTree.history_standsFor (steps : List (Nat × ScopeStep)) :
    List.Forall₂ StandsFor (ScopeStep.history ScopeStep.onScope [empty] steps)
      (ScopeStep.history ScopeStep.onStack [FrameStack.bare] steps) := by
  have hempty : ∀ t ∈ [empty], ScopeEntry.Framed t.entries t.depth :=
    List.forall_mem_singleton.2 rfl
  obtain ⟨hframed, hstack⟩ := ScopeStep.history_stack steps hempty
  have hbare : [empty].map (fun t => ScopeEntry.stack t.entries) = [FrameStack.bare] := rfl
  rw [← hbare, ← hstack, List.forall₂_map_right_iff, List.forall₂_same]
  exact fun t ht => standsFor_of_framed (hframed t ht)

end ShaderMorph
