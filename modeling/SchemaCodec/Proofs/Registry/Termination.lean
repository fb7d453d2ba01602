import Mathlib.Data.Set.Finite.List
import SchemaCodec.Proofs.Registry.Calls
import SchemaCodec.Proofs.Registry.Growth
import SchemaCodec.Proofs.TypeName.Grammar
import SchemaCodec.Proofs.TypeName.Substitution

/-! # Whether resolution ends

Under a higher limit resolution does the same as under a lower one until it reaches the lower limit.
A name at which one limit is reached is never one at which a higher limit is reached, so resolution
only goes on without end through ever longer names. There are none where the parameters of generic
types stand alone in their members.
-/

namespace SchemaCodec.Registry

open SchemaCodec.Action SchemaCodec.TypeName

variable {α β : Type} {r : Registry} {name stuck : String}

/-- With enough names under resolution at once, the name has a type or fails, and under no higher
limit is the outcome another one. -/
def Terminates (r : Registry) (name : String) : Prop :=
  ∃ outcome, (∀ stuck, outcome.result ≠ .error (.unbounded stuck)) ∧
    ∃ depth, ∀ limit, depth ≤ limit → resolveWithin limit [] name r = outcome

def Notes (r : Registry) (name : String) : Prop := ∃ d, r.resolved.get? name = some d

/-- Where the name is noted, the step does not reach a limit at it. -/
def Spares (name : String) (step : Action Registry α) : Prop :=
  step.Keeps (·.Notes name) (· ≠ .unbounded name) fun _ => True

/-- The second step does the same as the first one. Only where the first one has reached its limit,
the second one goes on: it does not reach a limit at the same name, and notes the name if it
succeeds. -/
def Outlasts (first second : Action Registry α) : Prop :=
  ∀ r, (second r = first r ∧ ∀ stuck, (first r).result ≠ .error (.unbounded stuck)) ∨
    ∃ stuck, (first r).result = .error (.unbounded stuck) ∧
      second.Ends r (fun _ r' => r'.Notes stuck) fun e _ => e ≠ .unbounded stuck

/-! ## Notes -/

theorem notes_note (h : r.Notes stuck) (name : String) (d : Descriptor) :
    (r.note name d).Notes stuck := by
  obtain ⟨d', noted⟩ := h
  exact ⟨d', Cache.get?_add_of_some noted name d⟩

theorem faults_ne_unbounded (stuck : String) : Faults (· ≠ .unbounded stuck) := by
  constructor <;> intros <;> exact fun no => nomatch no

theorem spares_resolveWithin (depth : Nat) (pending : List String) (name : String) :
    Spares stuck (resolveWithin depth pending name) := by
  refine faults_resolveWithin (faults_ne_unbounded stuck) (fun _ name d h => notes_note h name d)
    [] (fun r name noted new _ same => ?_) depth (List.nil_subset pending) name
  obtain ⟨d, known⟩ := noted
  obtain rfl := Error.unbounded.inj same
  cases new.symm.trans known

theorem ne_unbounded_of_mem {pending : List String} (mem : stuck ∈ pending) (depth : Nat)
    (name : String) :
    (resolveWithin depth pending name).Keeps (fun _ => True) (· ≠ .unbounded stuck)
      fun _ => True := by
  refine faults_resolveWithin (faults_ne_unbounded stuck) (fun _ _ _ _ => trivial) [stuck]
    (fun r name _ _ fresh same => ?_) depth ?_ name
  · exact fresh (List.mem_singleton.mpr (Error.unbounded.inj same))
  · exact List.cons_subset.mpr ⟨mem, List.nil_subset pending⟩

/-! ## Under a higher limit -/

section Steps

variable {first second : Action Registry α} {next next' : α → Action Registry β}

theorem outlasts_self {step : Action Registry α}
    (bounded : ∀ r stuck, (step r).result ≠ .error (.unbounded stuck)) : Outlasts step step :=
  fun r => .inl ⟨rfl, bounded r⟩

theorem outlasts_pure (x : α) : Outlasts (Pure.pure x) (Pure.pure x) :=
  outlasts_self fun _ _ no => by cases no

theorem outlasts_fail {e : Error} (bounded : ∀ stuck, e ≠ .unbounded stuck) :
    Outlasts (fail e : Action Registry α) (fail e) :=
  outlasts_self fun _ stuck same => bounded stuck (Except.error.inj same)

theorem spares_pure (x : α) : Spares stuck (Pure.pure x) := keeps_pure trivial

theorem outlasts_get {next next' : Registry → Action Registry α}
    (h : ∀ r, Outlasts (next r) (next' r)) : Outlasts (get >>= next) (get >>= next') :=
  fun r => h r r

theorem bind_eq_of_eq {r' : Registry} (same : second r = first r')
    (further : ∀ x, (first r').result = .ok x →
      next' x (first r').state = next x (first r').state) :
    (second >>= next') r = (first >>= next) r' := by
  show Action.bind second next' r = Action.bind first next r'
  unfold Action.bind
  dsimp only
  rw [same]
  cases result : (first r').result with
  | error e => rfl
  | ok x =>
    dsimp only
    rw [further x result]

theorem Outlasts.bind (h : Outlasts first second) (further : ∀ x, Outlasts (next x) (next' x))
    (spares : ∀ x stuck, Spares stuck (next' x)) :
    Outlasts (first >>= next) (second >>= next') := by
  intro r
  rcases h r with ⟨same, bounded⟩ | ⟨stuck, failed, on⟩
  · cases result : (first r).result with
    | error e =>
      refine .inl ⟨bind_eq_of_eq same fun x ok => ?_, fun stuck => ?_⟩
      · cases result.symm.trans ok
      · rw [result_bind, result]
        rintro ⟨⟩
        exact bounded stuck result
    | ok x =>
      rcases further x (first r).state with ⟨same', bounded'⟩ | ⟨stuck, failed, on⟩
      · refine .inl ⟨bind_eq_of_eq same fun y ok => ?_, fun stuck => ?_⟩
        · obtain rfl := Except.ok.inj (result.symm.trans ok)
          exact same'
        · rw [result_bind, result]
          exact bounded' stuck
      · refine .inr ⟨stuck, ?_, ?_⟩
        · rw [result_bind, result]
          exact failed
        · rw [ends_bind]
          refine ends_of_ok (x := x) ?_ ?_
          · rw [same, result]
          · rwa [same]
  · refine .inr ⟨stuck, ?_, ?_⟩
    · rw [result_bind, failed]
      rfl
    · rw [ends_bind]
      refine on.mono (fun x r' noted => ?_) fun _ _ other => other
      exact (spares x stuck r' noted).mono (fun _ _ kept => kept.1) fun _ _ kept => kept.2

theorem Outlasts.map {f : α → β} (h : Outlasts first second) :
    Outlasts (f <$> first) (f <$> second) :=
  h.bind (fun x => outlasts_pure (f x)) fun x _ => spares_pure (f x)

theorem outlasts_traverse {step step' : α → Action Registry β} {xs : List α}
    (each : ∀ x ∈ xs, Outlasts (step x) (step' x))
    (spares : ∀ x ∈ xs, ∀ stuck, Spares stuck (step' x)) :
    Outlasts (Action.traverse step xs) (Action.traverse step' xs) := by
  induction xs with
  | nil => exact outlasts_pure []
  | cons x xs ih =>
    have rest := ih (fun y hy => each y (List.mem_cons_of_mem x hy))
      fun y hy => spares y (List.mem_cons_of_mem x hy)
    refine (each x List.mem_cons_self).bind (fun y => rest.map) fun y stuck => ?_
    exact Keeps.map ((Keeps.traverse fun z hz => spares z (List.mem_cons_of_mem x hz) stuck).mono
      (fun _ _ => trivial) fun _ h => h)

end Steps

section Generics

variable {resolve resolve' : String → Action Registry Descriptor}

theorem outlasts_bindMember (h : ∀ name, Outlasts (resolve name) (resolve' name))
    (args : List Descriptor) (d : Descriptor) :
    Outlasts (bindMember resolve args d) (bindMember resolve' args d) := by
  induction d with
  | primitive p => exact outlasts_pure _
  | parameter i =>
    rw [bindMember, bindMember]
    split
    · exact outlasts_pure _
    · exact outlasts_fail fun _ no => by cases no
  | sequence container element ih =>
    rw [bindMember, bindMember]
    split
    · exact ih.map
    · exact outlasts_pure _
  | declared id args' =>
    unfold bindMember
    split
    · exact h _
    · exact outlasts_pure _
  | built name short origin members _ =>
    unfold bindMember
    split
    · exact h _
    · exact outlasts_pure _

variable (h : ∀ name, Outlasts (resolve name) (resolve' name))
  (spares : ∀ name stuck, Spares stuck (resolve' name))

include h spares

theorem outlasts_instantiate (g : Generic) (args : List Descriptor) :
    Outlasts (instantiate resolve g args) (instantiate resolve' g args) := by
  unfold instantiate
  split
  · exact outlasts_fail fun _ no => by cases no
  · refine Outlasts.bind (outlasts_traverse (fun member _ => ?_) fun member _ stuck => ?_)
      (fun members => outlasts_self fun _ _ no => by cases no) fun members stuck => ?_
    · exact (outlasts_bindMember h args member.2).bind (fun _ => outlasts_pure _) fun _ _ =>
        spares_pure _
    · exact (faults_bindMember (faults_ne_unbounded stuck) (fun name => spares name stuck) args
        member.2).bind fun _ _ => keeps_pure trivial
    · exact (keeps_report _).bind fun _ _ => keeps_pure trivial

theorem outlasts_resolveBase (base : String) :
    Outlasts (resolveBase resolve base) (resolveBase resolve' base) := by
  unfold resolveBase
  refine outlasts_get fun r => ?_
  split
  · exact outlasts_pure _
  · split
    · next g names _ =>
      refine (outlasts_traverse (fun name _ => h name) fun name _ => spares name).bind
        (fun args => (outlasts_instantiate h spares g args).bind (fun d => outlasts_pure _)
          fun d _ => spares_pure _) fun args stuck => ?_
      exact (faults_instantiate (faults_ne_unbounded stuck) (fun name => spares name stuck) g
        args).bind fun _ _ => keeps_pure trivial
    · exact outlasts_pure _

end Generics

/-- The higher limit is never reached at the name at which the lower one is: that name is under
resolution then, or it is noted. -/
theorem outlasts_resolveWithin {depth limit : Nat} (less : depth < limit) (pending : List String)
    (name : String) :
    Outlasts (resolveWithin depth pending name) (resolveWithin limit pending name) := by
  induction depth generalizing limit pending name with
  | zero =>
    obtain ⟨limit, rfl⟩ := Nat.exists_eq_succ_of_ne_zero (Nat.ne_of_gt less)
    unfold resolveWithin
    refine outlasts_get fun r => ?_
    split
    · exact outlasts_pure _
    · split
      · exact outlasts_fail fun _ no => by cases no
      · intro r
        refine .inr ⟨name, rfl, ?_⟩
        rw [ends_bind]
        refine (faults_resolveBase (faults_ne_unbounded name) (fun other => ne_unbounded_of_mem
          (List.mem_append_right pending (List.mem_singleton_self name)) limit other) _ r
          trivial).mono (fun found r' _ => ?_) fun _ _ kept => kept.2
        split
        · exact fun no => by cases no
        · exact ends_remember.mpr ⟨_, Cache.get?_add_self _ _ _⟩
  | succ depth ih =>
    obtain ⟨limit, rfl⟩ := Nat.exists_eq_succ_of_ne_zero (Nat.ne_of_gt (Nat.zero_lt_of_lt less))
    have deeper : depth < limit := Nat.lt_of_succ_lt_succ less
    unfold resolveWithin
    refine outlasts_get fun r => ?_
    split
    · exact outlasts_pure _
    · split
      · exact outlasts_fail fun _ no => by cases no
      · refine (outlasts_resolveBase (fun other => ih deeper _ other)
          (fun other stuck => spares_resolveWithin limit _ other) _).bind (fun found => ?_)
          fun found stuck => ?_
        · split
          · exact outlasts_fail fun _ no => by cases no
          · exact outlasts_self fun _ _ no => by cases no
        · split
          · exact keeps_fail fun no => by cases no
          · exact keeps_remember (fun _ name d noted => notes_note noted name d) _ _

/-! ## Ends and names without end -/

theorem not_stuck_again {depth limit : Nat} (less : depth < limit)
    (reached : (resolveWithin depth [] name r).result = .error (.unbounded stuck)) :
    (resolveWithin limit [] name r).result ≠ .error (.unbounded stuck) := by
  rcases outlasts_resolveWithin less [] name r with ⟨-, bounded⟩ | ⟨other, at_, on⟩
  · exact absurd reached (bounded stuck)
  · obtain rfl := Error.unbounded.inj (Except.error.inj (at_.symm.trans reached))
    exact fun again => on.of_error again rfl

theorem resolveWithin_eq_of_le {depth limit : Nat} (le : depth ≤ limit)
    (bounded : ∀ stuck, (resolveWithin depth [] name r).result ≠ .error (.unbounded stuck)) :
    resolveWithin limit [] name r = resolveWithin depth [] name r := by
  rcases Nat.eq_or_lt_of_le le with rfl | less
  · rfl
  · rcases outlasts_resolveWithin less [] name r with ⟨same, -⟩ | ⟨stuck, reached, -⟩
    · exact same
    · exact absurd reached (bounded stuck)

theorem terminates_iff_exists_depth : r.Terminates name ↔
    ∃ depth, ∀ stuck, (resolveWithin depth [] name r).result ≠ .error (.unbounded stuck) := by
  constructor
  · rintro ⟨outcome, bounded, depth, same⟩
    refine ⟨depth, ?_⟩
    rwa [same depth (Nat.le_refl depth)]
  · rintro ⟨depth, bounded⟩
    exact ⟨_, bounded, depth, fun limit le => resolveWithin_eq_of_le le bounded⟩

theorem finite_char : Finite Char :=
  Finite.of_injective (fun c : Char => c.val.toBitVec.toFin) fun _ _ same =>
    Char.ext (UInt32.toBitVec_inj.mp (BitVec.toFin_inj.mp same))

theorem finite_short (length : Nat) : {name : String | name.length ≤ length}.Finite := by
  have := finite_char
  refine ((List.finite_length_le Char length).preimage
    (fun _ _ _ _ same => String.toList_injective same)).subset ?_
  intro name short
  rwa [Set.mem_preimage, Set.mem_ofPred_eq, String.length_toList]

/-- If resolution ends, the names at which it reaches a limit are of bounded length. -/
theorem Terminates.short (ends : r.Terminates name) : ∃ length, ∀ depth stuck,
    (resolveWithin depth [] name r).result = .error (.unbounded stuck) → stuck.length ≤ length := by
  obtain ⟨depth, bounded⟩ := terminates_iff_exists_depth.mp ends
  let reached (limit : Nat) : Nat :=
    match (resolveWithin limit [] name r).result with
    | .error (.unbounded stuck) => stuck.length
    | _ => 0
  refine ⟨(Finset.range depth).sup reached, fun limit stuck failed => ?_⟩
  have less : limit < depth := by
    by_contra beyond
    rw [resolveWithin_eq_of_le (Nat.le_of_not_lt beyond) bounded] at failed
    exact bounded stuck failed
  have here : reached limit = stuck.length := by simp only [reached, failed]
  rw [← here]
  exact Finset.le_sup (Finset.mem_range.mpr less)

/-- If the names at which resolution reaches a limit are of bounded length, it ends. -/
theorem terminates_of_short {length : Nat} (short : ∀ depth stuck,
    (resolveWithin depth [] name r).result = .error (.unbounded stuck) →
      stuck.length ≤ length) : r.Terminates name := by
  rw [terminates_iff_exists_depth]
  by_contra endless
  -- Every limit is reached, and at infinitely many names in all.
  have each : ∀ depth, ∃ stuck,
      (resolveWithin depth [] name r).result = .error (.unbounded stuck) := by
    simpa only [not_exists, not_forall, not_not] using endless
  choose stuck reached using each
  have apart : Function.Injective stuck := by
    intro depth limit same
    rcases Nat.lt_trichotomy depth limit with less | equal | less
    · exact absurd (same ▸ reached limit) (not_stuck_again less (reached depth))
    · exact equal
    · exact absurd (same ▸ reached depth) (not_stuck_again less (reached limit))
  exact Set.infinite_of_injective_forall_mem apart (fun depth => short depth _ (reached depth))
    (finite_short length)

/-- Resolution ends exactly if there is a bound on the length of the names that it comes to at
whatever limit. -/
theorem terminates_iff : r.Terminates name ↔
    ∃ length, ∀ depth stuck,
      (resolveWithin depth [] name r).result = .error (.unbounded stuck) →
        stuck.length ≤ length :=
  ⟨fun ends => ends.short, fun ⟨_, short⟩ => terminates_of_short short⟩

/-! ## Parameters that stand alone -/

/-- Parameters only stand by themselves in the type, or as the element of a sequence. -/
def Direct (d : Descriptor) : Prop :=
  hasParameters d.innermost.name = true → ∃ i, d.innermost = .parameter i

/-- The members of generic types have parameters by themselves only. -/
def AllDirect (r : Registry) : Prop :=
  ∀ base g, r.generics.get? base = some g → ∀ m ∈ g.members, Direct m.2

theorem keeps_bindMember_direct {I : Registry → Prop} {R : Error → Prop} (faults : Faults R)
    {d : Descriptor} (direct : Direct d) (resolve : String → Action Registry Descriptor)
    (args : List Descriptor) : (bindMember resolve args d).Keeps I R fun _ => True := by
  induction d with
  | primitive p => exact keeps_pure trivial
  | parameter i =>
    rw [bindMember]
    split
    · exact keeps_pure trivial
    · exact keeps_fail (faults.unbound i)
  | sequence container element ih =>
    rw [bindMember]
    split
    · exact (ih direct).map
    · exact keeps_pure trivial
  | declared id args' =>
    unfold bindMember
    split
    · next opened => cases (direct opened).choose_spec
    · exact keeps_pure trivial
  | built name short origin members _ =>
    unfold bindMember
    split
    · next opened => cases (direct opened).choose_spec
    · exact keeps_pure trivial

/-- No name is resolved that is longer than the first one. -/
theorem short_resolveWithin (depth : Nat) (pending : List String) (name : String) :
    (resolveWithin depth pending name).Keeps AllDirect
      (fun e => ∀ stuck, e = .unbounded stuck → stuck.length ≤ name.length) fun _ => True := by
  have faults : ∀ length, Faults fun e => ∀ stuck, e = .unbounded stuck → stuck.length ≤ length :=
    fun _ => by constructor <;> intros <;> contradiction
  induction depth generalizing pending name with
  | zero =>
    unfold resolveWithin
    refine keeps_get.bind fun r _ => ?_
    split
    · exact keeps_pure trivial
    · split
      · exact keeps_fail ((faults _).cycle pending)
      · refine keeps_fail fun stuck same => ?_
        rw [Error.unbounded.inj same]
  | succ depth ih =>
    unfold resolveWithin
    refine keeps_get.bind fun r _ => ?_
    split
    · exact keeps_pure trivial
    · split
      · exact keeps_fail ((faults _).cycle pending)
      · refine Keeps.bind (P := fun _ => True) ?_ fun found _ => ?_
        · unfold resolveBase
          refine keeps_get.bind fun s direct => ?_
          split
          · exact keeps_pure trivial
          · split
            · next g names application =>
              obtain ⟨head, parsed, known⟩ := application?_eq_some.mp application
              refine (Keeps.traverse (Q := fun _ _ => True) fun a mem => ?_).bind fun args _ =>
                (faults_of_members (faults _) fun m mem => keeps_bindMember_direct (faults _)
                  (direct head g known m mem) _ args).bind fun _ _ => keeps_pure trivial
              have shorter := Nat.lt_of_lt_of_le (length_lt_of_parseGeneric parsed a mem)
                (length_splitArrays_le name)
              exact (ih _ a).mono (fun _ _ => trivial) fun e bounded stuck same =>
                Nat.le_trans (bounded stuck same) (Nat.le_of_lt shorter)
            · exact keeps_pure trivial
        · split
          · exact keeps_fail ((faults _).missing name)
          · exact keeps_remember (fun _ _ _ direct => direct) _ _

/-- Where the members of generic types have parameters by themselves only, resolution ends. -/
theorem terminates_of_direct (direct : r.AllDirect) (name : String) : r.Terminates name :=
  terminates_of_short fun depth stuck reached =>
    (short_resolveWithin depth [] name).of_error direct reached stuck rfl

/-! ## A chain of names without end -/

def letter (i : Nat) : String := String.singleton (Char.ofNat ('A'.toNat + i % 26))

/-- The next of the types at the same argument, or, once in a round, at a sequence of it. -/
def next (i : Nat) : Descriptor :=
  .built (generic (letter (i + 1)) [arrays (parameter 0) (if i % 26 = 25 then 1 else 0)])
    (letter (i + 1)) .declared []

def turn (i : Nat) : Generic := ⟨letter i, 1, [("next", next i)]⟩

/-- Generic types that lead from one to the next in a ring. -/
def spiral : Registry := afterCalls ((List.range 26).map fun i => .declareGeneric (turn i))

theorem letter_mod (i : Nat) : letter (i % 26) = letter i := by rw [letter, letter, Nat.mod_mod]

theorem letter_bare (i : Nat) : (letter i).toList ≠ [] ∧
    trim (letter i).toList = (letter i).toList ∧
    ∀ c ∈ (letter i).toList, c ∉ ['$', '<', '>', ',', '[', ']'] := by
  have each : ∀ i < 26, trim [Char.ofNat ('A'.toNat + i)] = [Char.ofNat ('A'.toNat + i)] ∧
      Char.ofNat ('A'.toNat + i) ∉ ['$', '<', '>', ',', '[', ']'] := by
    decide
  obtain ⟨trimmed, bare⟩ := each _ (Nat.mod_lt i (by decide))
  rw [letter, String.toList_singleton]
  refine ⟨List.cons_ne_nil _ _, trimmed, fun c mem => ?_⟩
  rwa [List.mem_singleton.mp mem]

theorem letter_inj {i j : Nat} (same : letter i = letter j) : i % 26 = j % 26 := by
  have each : ∀ i < 26, ∀ j < 26, letter i = letter j → i = j := by decide
  rw [← letter_mod i, ← letter_mod j] at same
  exact each _ (Nat.mod_lt i (by decide)) _ (Nat.mod_lt j (by decide)) same

theorem turn_mod (i : Nat) : turn (i % 26) = turn i := by
  have further : letter (i % 26 + 1) = letter (i + 1) := by
    rw [← letter_mod, Nat.mod_add_mod, letter_mod]
  rw [turn, turn, next, next, letter_mod, further, Nat.mod_mod]

theorem get?_spiral (i : Nat) : spiral.generics.get? (letter i) = some (turn i) := by
  have entries : spiral.generics.entries = (List.range 26).map fun i => (letter i, turn i) := rfl
  have found : ∀ i < 26, (List.range 26).find? (fun j => letter j = letter i) = some i := by decide
  rw [Cache.get?, entries, List.find?_map, ← letter_mod]
  simp only [Function.comp_def, found _ (Nat.mod_lt i (by decide)), Option.map_some, turn_mod]

def windings : Nat → Expr
  | 0 => .path ⟨"Int32", by decide, by decide, by simp⟩
  | rounds + 1 => .array (windings rounds)

def place (i : Nat) : Path where
  name := letter i
  nonempty := (letter_bare i).1
  trimmed := (letter_bare i).2.1
  bare c hc mem := (letter_bare i).2.2 c hc (List.mem_cons_of_mem '$' mem)

def coil (i : Nat) : Expr := .applied (place i) (windings (i / 26)) []

theorem print_windings (rounds : Nat) : (windings rounds).print = arrays "Int32" rounds := by
  induction rounds with
  | zero => rfl
  | succ rounds ih => exact congrArg array ih

theorem print_coil (i : Nat) : (coil i).print = generic (letter i) [arrays "Int32" (i / 26)] := by
  rw [coil, Expr.print, Expr.printAll, print_windings]
  rfl

theorem coil_inj {i j : Nat} (same : (coil i).print = (coil j).print) : i = j := by
  obtain ⟨path, argument, -⟩ := Expr.applied.inj (Expr.print_inj same)
  have rounds := congrArg Expr.levels argument
  have depth : ∀ rounds, (windings rounds).levels = rounds := by
    intro rounds
    induction rounds with
    | zero => rfl
    | succ rounds ih => exact congrArg (· + 1) ih
  rw [depth, depth] at rounds
  have place := letter_inj (congrArg Path.name path)
  omega

theorem replaces_arrays (arg : String) (levels : Nat) :
    Replaces 0 arg (arrays (parameter 0) levels).toList (arrays arg levels).toList := by
  have plain : ∀ levels, '$' ∉ marks levels := by
    intro levels
    induction levels with
    | zero => exact List.not_mem_nil
    | succ levels ih =>
      simp only [marks, List.mem_cons, not_or]
      exact ⟨by decide, by decide, ih⟩
  rw [toList_arrays, toList_arrays]
  cases levels with
  | zero =>
    rw [marks, List.append_nil, List.append_nil]
    exact replaces_parameter 0 arg
  | succ levels =>
    exact (replaces_parameter 0 arg).append (replaces_plain (plain _)) (ended_of_head rfl _)
      (List.cons_ne_nil _ _)

theorem substitute_next (i : Nat) :
    substitute (next i).name [arrays "Int32" (i / 26)] = (coil (i + 1)).print := by
  have plain : '$' ∉ (letter (i + 1)).toList := fun mem =>
    (letter_bare (i + 1)).2.2 '$' mem List.mem_cons_self
  have replaced := replaces_generic plain
    (.cons (replaces_arrays (arrays "Int32" (i / 26)) (if i % 26 = 25 then 1 else 0)) .nil) []
    fun _ no => nomatch no
  have nothing : replaceParameter 0 (arrays "Int32" (i / 26)) [] = [] := rfl
  rw [List.append_nil, nothing, List.append_nil] at replaced
  have rounds : arrays (arrays "Int32" (i / 26)) (if i % 26 = 25 then 1 else 0) =
      arrays "Int32" ((i + 1) / 26) := by
    split
    · have more : (i + 1) / 26 = i / 26 + 1 := by omega
      rw [more]
      rfl
    · have same : (i + 1) / 26 = i / 26 := by omega
      rw [same]
      rfl
  rw [next, Descriptor.name, substitute, substituteFrom, substituteFrom, replaced,
    String.ofList_toList, rounds, print_coil]

/-- Only sequences of `Int32` are noted, and nothing is declared but the ring. -/
structure Coiled (r : Registry) : Prop where
  generics : r.generics = spiral.generics
  declared : r.declared = .empty
  resolved : ∀ name d, r.resolved.get? name = some d →
    ∃ levels, name = arrays "Int32" levels ∧ d.name = name

theorem Coiled.note (h : Coiled r) {d : Descriptor} {levels : Nat}
    (named : d.name = arrays "Int32" levels) : Coiled (r.note (arrays "Int32" levels) d) := by
  refine ⟨h.generics, h.declared, fun name d' found => ?_⟩
  rcases Cache.get?_add_eq_some found with held | ⟨-, rfl, rfl⟩
  · exact h.resolved name d' held
  · exact ⟨levels, rfl, named⟩

theorem coil_not_mem {pending : List String} {i : Nat}
    (passed : ∀ name ∈ pending, ∃ j < i, name = (coil j).print) : (coil i).print ∉ pending := by
  intro mem
  obtain ⟨j, less, same⟩ := passed _ mem
  exact absurd (coil_inj same) (Nat.ne_of_gt less)

theorem coil_ne (i levels : Nat) : (coil i).print ≠ arrays "Int32" levels := by
  intro same
  rw [← print_windings] at same
  cases levels <;> cases Expr.print_inj same

theorem Coiled.base (h : Coiled r) : ∃ d, r.base? "Int32" = some d ∧ d.name = "Int32" := by
  obtain ⟨p, spelled, named⟩ : ∃ p, Primitive.ofSpelling? "Int32" = some p ∧ p.name = "Int32" :=
    ⟨_, rfl, rfl⟩
  rw [base?, h.declared, Cache.get?_empty, Option.or_none, spelled]
  cases found : r.resolved.get? "Int32" with
  | none => exact ⟨.primitive p, rfl, named⟩
  | some d =>
    obtain ⟨_, -, same⟩ := h.resolved _ d found
    exact ⟨d, rfl, same⟩

theorem ends_windings (h : Coiled r) {pending : List String} {levels : Nat}
    (apart : arrays "Int32" levels ∉ pending) (depth : Nat) :
    (resolveWithin depth pending (arrays "Int32" levels)).Ends r
      (fun d r' => Coiled r' ∧ d.name = arrays "Int32" levels)
      fun e _ => ∃ stuck, e = .unbounded stuck := by
  unfold resolveWithin
  rw [ends_bind, ends_get]
  split
  · next d found =>
    obtain ⟨_, -, named⟩ := h.resolved _ d found
    exact ⟨h, named⟩
  · next new =>
    rw [if_neg apart]
    cases depth with
    | zero => exact ⟨_, rfl⟩
    | succ depth =>
      have split : splitArrays (arrays "Int32" levels) = ("Int32", levels) :=
        splitArrays_arrays (atomic_of_spelling (p := .scalar .int32) rfl) levels
      have plain : r.application? "Int32" = none := rfl
      obtain ⟨d, known, named⟩ := h.base
      have whole : (d.arrays levels).name = arrays "Int32" levels := by rw [d.name_arrays, named]
      rw [split]
      dsimp only
      rw [ends_bind, ends_resolveBase fun _ => plain, known]
      dsimp only
      rw [ends_remember, Cache.getOr, new]
      exact ⟨h.note whole, whole⟩

theorem Coiled.fresh (h : Coiled r) (i : Nat) :
    (r.resolved.get? (coil i).print).or (r.declared.get? (coil i).print) = none := by
  rw [h.declared, Cache.get?_empty, Option.or_none]
  cases found : r.resolved.get? (coil i).print with
  | none => rfl
  | some d =>
    obtain ⟨levels, same, -⟩ := h.resolved _ d found
    exact absurd same (coil_ne i levels)

theorem Coiled.application (h : Coiled r) (i : Nat) :
    r.application? (coil i).print = some (turn i, [arrays "Int32" (i / 26)]) := by
  have parsed := Expr.parseGeneric_print (place i) (windings (i / 26)) []
  rw [List.map_singleton, print_windings] at parsed
  exact application?_eq_some.mpr ⟨letter i, parsed, h.generics ▸ get?_spiral i⟩

theorem bindMember_next (resolve : String → Action Registry Descriptor) (args : List Descriptor)
    (i : Nat) : bindMember resolve args (next i) =
      resolve (substitute (next i).name (args.map Descriptor.name)) := by
  have opened : hasParameters (next i).name = true := by
    rw [next, Descriptor.name, hasParameters, List.contains_iff_mem, toList_generic,
      List.map_singleton, List.intercalate_singleton, toList_arrays, toList_parameter]
    simp
  rw [next] at opened ⊢
  rw [bindMember, if_pos opened]
  all_goals simp

/-- Resolution goes on until the limit is reached, whatever the limit is. -/
theorem ends_coil (h : Coiled r) {pending : List String} {i : Nat}
    (passed : ∀ name ∈ pending, ∃ j < i, name = (coil j).print) (depth : Nat) :
    (resolveWithin depth pending (coil i).print).Ends r (fun _ _ => False)
      fun e _ => ∃ stuck, e = .unbounded stuck := by
  induction depth generalizing r pending i with
  | zero =>
    unfold resolveWithin
    rw [ends_bind, ends_get, (Option.or_eq_none_iff.mp (h.fresh i)).1]
    dsimp only
    rw [if_neg (coil_not_mem passed)]
    exact ⟨_, rfl⟩
  | succ depth ih =>
    have further : ∀ name ∈ pending ++ [(coil i).print], ∃ j < i + 1, name = (coil j).print := by
      intro name mem
      rcases List.mem_append.mp mem with before | here
      · obtain ⟨j, less, same⟩ := passed name before
        exact ⟨j, Nat.lt_succ_of_lt less, same⟩
      · exact ⟨i, Nat.lt_succ_self i, List.mem_singleton.mp here⟩
    unfold resolveWithin
    rw [ends_bind, ends_get, (Option.or_eq_none_iff.mp (h.fresh i)).1]
    dsimp only
    rw [if_neg (coil_not_mem passed), Expr.splitArrays_print]
    dsimp only
    rw [ends_bind]
    show (resolveBase _ (coil i).print).Ends r _ _
    unfold resolveBase
    rw [ends_bind, ends_get, h.fresh i, h.application i]
    dsimp only
    rw [ends_bind]
    refine ends_traverse (P := fun name d => d.name = name) h (fun name mem r' h' => ?_)
      fun args r' h' each => ?_
    · obtain rfl := List.mem_singleton.mp mem
      refine ends_windings h' (fun mem => ?_) depth
      obtain ⟨j, -, same⟩ := further _ mem
      exact coil_ne j _ same.symm
    · obtain ⟨d, _, named, none, rfl⟩ := List.forall₂_cons_left_iff.mp each
      obtain rfl := List.forall₂_nil_left_iff.mp none
      rw [ends_bind]
      unfold instantiate
      have arity : ¬ [d].length ≠ (turn i).arity := fun no => no rfl
      rw [if_neg arity, ends_bind]
      have members : (turn i).members = [("next", next i)] := rfl
      rw [members, Action.traverse, ends_bind]
      dsimp only
      rw [ends_bind, bindMember_next, List.map_singleton, named, substitute_next]
      exact (ih h' further).mono (fun _ _ no => no.elim) fun _ _ stuck => stuck

theorem coiled_spiral : Coiled spiral := ⟨rfl, rfl, fun _ _ found => nomatch found⟩

/-- A type of the ring at an argument resolves to nothing under any limit. -/
theorem spiral_endless : ¬ spiral.Terminates "A<Int32>" := by
  rw [terminates_iff_exists_depth]
  rintro ⟨depth, bounded⟩
  have ends := @ends_coil _ coiled_spiral [] 0 (fun _ no => nomatch no) depth
  have first : (coil 0).print = "A<Int32>" := by decide
  rw [first] at ends
  cases result : (resolveWithin depth [] "A<Int32>" spiral).result with
  | ok d => exact ends.of_ok result
  | error e =>
    obtain ⟨stuck, rfl⟩ := ends.of_error result
    exact bounded stuck result

end SchemaCodec.Registry
