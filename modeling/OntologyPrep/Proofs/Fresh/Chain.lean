import Mathlib.Data.List.Permutation
import OntologyPrep.Fresh.RenameMap

/-!
# Chains of links

`RenameMap.Hops m n a b` says that `n` links lead from `a` to `b`, with no limit to how many.  A walk takes
one hop more than there are links, if it can: a chain that comes to no name twice has left a different
link behind with every hop, so that it ends before that (`RenameMap.Hops.le_size`), and a chain that does
not end comes to some name twice (`RenameMap.Hops.neverRevisits`).

* `RenameMap.resolve_chain`   a walk along a chain without repetition stands at its end, and any other walk
                              stops after one hop more than there are links.
-/

namespace OntologyPrep.RenameMap

/-- some links one after another lead from a name to a name -/
inductive Hops (m : RenameMap) : Nat → String → String → Prop where
  | stay (a : String) : Hops m 0 a a
  | hop {n : Nat} {a b c : String} : m.previous? a = some b → Hops m n b c → Hops m (n + 1) a c

/-- the links that start at a name come to no name twice -/
def NeverRevisits (m : RenameMap) (name : String) : Prop :=
  ∀ i j a, m.Hops i name a → m.Hops j name a → i = j

variable {m : RenameMap} {a b c : String} {i n : Nat}

theorem NeverRevisits.of_link (h : m.NeverRevisits a) (hlink : m.previous? a = some b) :
    m.NeverRevisits b := fun i j c hi hj =>
  Nat.succ.inj (h (i + 1) (j + 1) c (.hop hlink hi) (.hop hlink hj))

/-! ## chains that end -/

/-- no chain goes beyond a name without a link: the other one comes to the same end -/
theorem Hops.of_end (h : m.Hops n a c) (hend : m.previous? c = none) (hi : m.Hops i a b) :
    ∃ k, m.Hops k b c ∧ i + k = n := by
  induction hi generalizing n with
  | stay a => exact ⟨n, h, Nat.zero_add n⟩
  | @hop i a b' b hlink _ ih =>
    cases h with
    | stay =>
      rw [hend] at hlink
      cases hlink
    | @hop n _ b'' _ hlink' htail =>
      obtain rfl := Option.some.inj (hlink'.symm.trans hlink)
      obtain ⟨k, hk, hsum⟩ := ih htail
      exact ⟨k, hk, by omega⟩

/-- a chain that ends comes to no name twice -/
theorem Hops.neverRevisits (h : m.Hops n a c) (hend : m.previous? c = none) : m.NeverRevisits a := by
  intro i j b hi hj
  obtain ⟨k, hk, hik⟩ := h.of_end hend hi
  obtain ⟨l, hl, hjl⟩ := h.of_end hend hj
  -- both ways on from `b` end at `c`, so that they are one
  obtain ⟨z, hz, hlz⟩ := hl.of_end hend hk
  cases hz with
  | stay => omega
  | hop hlink _ =>
    rw [hend] at hlink
    cases hlink

/-- the names that a chain without repetition leaves behind are all different, and each has a link -/
theorem Hops.exists_left (h : m.Hops n a b) (hnever : m.NeverRevisits a) :
    ∃ names : List String, names.length = n ∧ names.Nodup ∧
      ∀ x ∈ names, x ∈ m.links ∧ ∃ i, m.Hops i a x := by
  induction h with
  | stay a => exact ⟨[], rfl, List.nodup_nil, fun x hx => nomatch hx⟩
  | @hop n a b c hlink _ ih =>
    obtain ⟨names, hlen, hnodup, hnames⟩ := ih (hnever.of_link hlink)
    have hnew : a ∉ names := by
      intro hmem
      obtain ⟨i, hi⟩ := (hnames a hmem).2
      have := hnever 0 (i + 1) a (.stay a) (.hop hlink hi)
      omega
    refine ⟨a :: names, by rw [List.length_cons, hlen], List.nodup_cons.mpr ⟨hnew, hnodup⟩, ?_⟩
    intro x hx
    rcases List.mem_cons.mp hx with rfl | hx
    · have hkey : (m.links[x]?).isSome = true := by
        rw [show m.links[x]? = some b from hlink]
        rfl
      exact ⟨Std.TreeMap.mem_iff_isSome_getElem?.mpr hkey, 0, .stay x⟩
    · obtain ⟨hkey, i, hi⟩ := hnames x hx
      exact ⟨hkey, i + 1, .hop hlink hi⟩

/-- a chain without repetition takes no more hops than there are links -/
theorem Hops.le_size (h : m.Hops n a b) (hnever : m.NeverRevisits a) : n ≤ m.size := by
  obtain ⟨names, rfl, hnodup, hnames⟩ := h.exists_left hnever
  calc names.length ≤ m.links.keys.length :=
        hnodup.length_le_of_subset fun x hx => Std.TreeMap.mem_keys.mpr (hnames x hx).1
    _ = m.size := Std.TreeMap.length_keys

/-! ## walks -/

/-- a walk takes all the hops that it may take, unless it comes to an end before -/
theorem exists_hops_follow (m : RenameMap) (hops : Nat) (name : String) :
    ∃ n ≤ hops, m.Hops n name (m.follow hops name) ∧
      (m.previous? (m.follow hops name) = none ∨ n = hops) := by
  induction hops generalizing name with
  | zero => exact ⟨0, Nat.le_refl 0, .stay name, .inr rfl⟩
  | succ hops ih =>
    rw [follow]
    split
    · next old hold =>
      obtain ⟨n, hle, hn, hstop⟩ := ih old
      exact ⟨n + 1, Nat.succ_le_succ hle, .hop hold hn, hstop.imp_right (congrArg Nat.succ)⟩
    · next hnone => exact ⟨0, Nat.zero_le _, .stay name, .inl hnone⟩

/-- From a name whose links come to no name twice a walk stands at the end of the chain, a name without
link, which is its own end; the name leads to itself and to that end, and to nothing else.  From any other
name a walk stops too, after one hop more than there are links. -/
theorem resolve_chain (m : RenameMap) (name : String) :
    (m.NeverRevisits name →
      (∃ n ≤ m.size, m.Hops n name (m.resolve name)) ∧ m.previous? (m.resolve name) = none ∧
      m.resolve (m.resolve name) = m.resolve name ∧
      ∀ origin, m.leadsTo name origin = true ↔ origin = name ∨ origin = m.resolve name) ∧
    (¬ m.NeverRevisits name → m.Hops (m.size + 1) name (m.resolve name)) := by
  obtain ⟨n, hle, hn, hstop⟩ := m.exists_hops_follow (m.size + 1) name
  rw [← resolve] at hn hstop
  constructor
  · intro hnever
    have hsize := hn.le_size hnever
    have hend : m.previous? (m.resolve name) = none := hstop.resolve_right (by omega)
    refine ⟨⟨n, hsize, hn⟩, hend, resolve_of_previous?_eq_none hend, fun origin => ?_⟩
    rw [leadsTo, Bool.or_eq_true, decide_eq_true_eq, decide_eq_true_eq, @eq_comm _ name,
      @eq_comm _ (m.resolve name)]
  · intro hrevisits
    rcases hstop with hend | rfl
    · exact absurd (hn.neverRevisits hend) hrevisits
    · exact hn

/-- two links that lead from `?C` to `?A`, and two that go round between `?X` and `?Y` -/
def chainAndCycle : RenameMap :=
  ((empty.insert "?C" "?B").insert "?B" "?A").extend ((empty.insert "?X" "?Y").insert "?Y" "?X")

/-- the chain is followed to its end, and five hops are taken on the cycle -/
theorem resolve_chain_chainAndCycle :
    chainAndCycle.NeverRevisits "?C" ∧ chainAndCycle.resolve "?C" = "?A" ∧
    (∀ origin, chainAndCycle.leadsTo "?C" origin = true ↔ origin = "?C" ∨ origin = "?A") ∧
    ¬ chainAndCycle.NeverRevisits "?X" ∧ chainAndCycle.Hops 5 "?X" "?Y" := by
  have hfirst : chainAndCycle.previous? "?C" = some "?B" := by cbv
  have hsecond : chainAndCycle.previous? "?B" = some "?A" := by cbv
  have hforth : chainAndCycle.previous? "?X" = some "?Y" := by cbv
  have hback : chainAndCycle.previous? "?Y" = some "?X" := by cbv
  have hchain : chainAndCycle.NeverRevisits "?C" :=
    (Hops.hop hfirst (.hop hsecond (.stay "?A"))).neverRevisits (by cbv)
  have hcycle : ¬ chainAndCycle.NeverRevisits "?X" := fun h =>
    absurd (h 0 2 "?X" (.stay _) (.hop hforth (.hop hback (.stay _)))) (by decide)
  have hend : chainAndCycle.resolve "?C" = "?A" := by cbv
  have hwalk := (resolve_chain chainAndCycle "?X").2 hcycle
  rw [show chainAndCycle.size = 4 by cbv, show chainAndCycle.resolve "?X" = "?Y" by cbv] at hwalk
  refine ⟨hchain, hend, ?_, hcycle, hwalk⟩
  have hleads := ((resolve_chain chainAndCycle "?C").1 hchain).2.2.2
  rwa [hend] at hleads

end OntologyPrep.RenameMap
