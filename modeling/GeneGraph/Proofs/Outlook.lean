import GeneGraph.Proofs.Alignment
import GeneGraph.Proofs.Ordering

/-!
# Outputs seen from outside

A code that holds another takes an output of it for what its type resolves to, given the inputs:
a wildcard of the output stands for the input that it names. Inside, the output is fed by some
source, and since a wildcard takes whatever it is fed, the checks never ask whether this source is
of the type that is promised outside.

`Code.delivered_promised_iff` says when the promise is kept: every part of the delivered type that
stands at a wildcard of the output has to feed what the wildcard takes from the inputs. An output
without wildcards keeps it. `Code.relay_breaks_promise` shows a sequence that does not: the
wildcard in its output names an input of its second code, but is read as naming its own.
-/

namespace GeneGraph.Code

variable {reg : Registry} {c : Code} {k : Nat} {d t : Ept}

/-- In a valid code, the source of an output delivers what the output promises outside exactly if
its parts at the wildcards of the output feed the inputs, or parts of inputs, that these name. -/
theorem delivered_promised_iff (hv : c.violation? reg = none)
    (hx : c.kind.isWiringExempt = false) (hd : c.outputs.get? k = some d)
    (ht : d.resolve c.inputs.epts = .ok t) :
    ∃ src e, c.graph.sourceOf? ⟨.O, k⟩ = some src ∧ c.graph.delivered src = some e ∧
      (reg.isCompatible e t = true ↔ ∀ o x y, Ept.Aligned TypeUid.origin? o x e d →
        Ept.ofOrigin c.inputs.epts o = .ok y → reg.isCompatible x y = true) ∧
      (d.hasWildcard = false → reg.isCompatible e t = true) := by
  obtain ⟨hsound, hcomplete⟩ := violation?_eq_none_iff.mp hv
  have hc : c.graph.Complete := hcomplete.resolve_left fun he => by
    rw [hx] at he
    cases he
  have hex : c.graph.exists? .dst ⟨.O, k⟩ = true := Graph.exists?_iff.mpr (by
    show (c.outputs.get? k).isSome = true
    rw [hd]
    rfl)
  obtain ⟨src, hs⟩ := Option.isSome_iff_exists.mp (hc _ hex)
  obtain ⟨d', e, hd', he, -, hcompat⟩ := hsound.joins _ _ hs
  cases hd.symm.trans hd'
  have hiff := Registry.isCompatible_resolve_iff hcompat ht
  refine ⟨src, e, hs, he, hiff, fun hplain => hiff.mpr fun o x y hxy _ => ?_⟩
  rw [hxy.hasWildcard] at hplain
  cases hplain

/-- A sequence: a codon makes a text of its input, and another hands on what it is fed. -/
def relay (input : Fin 65536) : Code :=
  ((stack (.codon (.single 1) firstInputOnly)
    (.codon (.single input) (.single 5))).toOption.getD .sample).wired [(⟨.A, 0⟩, ⟨.B, 0⟩)]

/-- The sequence keeps its promise if its own input is a text too. -/
theorem delivered_promised_iff_relay :
    (relay 5).violation? sampleRegistry = none ∧
      firstInput.resolve (relay 5).inputs.epts = .ok (.plain 0 5) ∧
      ∃ src e, (relay 5).graph.sourceOf? ⟨.O, 0⟩ = some src ∧
        (relay 5).graph.delivered src = some e ∧
        ∀ o x y, Ept.Aligned TypeUid.origin? o x e firstInput →
          Ept.ofOrigin (relay 5).inputs.epts o = .ok y →
            sampleRegistry.isCompatible x y = true := by
  have hv : (relay 5).violation? sampleRegistry = none := by decide +kernel
  have hx : (relay 5).kind.isWiringExempt = false := by decide +kernel
  have hd : (relay 5).outputs.get? 0 = some firstInput := by decide +kernel
  have ht : firstInput.resolve (relay 5).inputs.epts = .ok (.plain 0 5) := by decide +kernel
  have hfed : (relay 5).graph.fed ⟨.O, 0⟩ = some (.plain 0 5) := by decide +kernel
  obtain ⟨src, e, hs, he, hiff, -⟩ := delivered_promised_iff hv hx hd ht
  rw [Graph.fed, hs, Option.bind_some, he] at hfed
  cases hfed
  exact ⟨hv, ht, src, .plain 0 5, hs, he, hiff.mp (Registry.isCompatible_self _ _)⟩

/-- If its input is a truth value, the sequence promises that, and still makes a text. -/
theorem relay_breaks_promise :
    (relay 6).violation? sampleRegistry = none ∧ (relay 6).kind.isWiringExempt = false ∧
      (relay 6).outputs.get? 0 = some firstInput ∧
      firstInput.resolve (relay 6).inputs.epts = .ok (.plain 0 6) ∧
      (relay 6).graph.fed ⟨.O, 0⟩ = some (.plain 0 5) ∧
      sampleRegistry.isCompatible (.plain 0 5) (.plain 0 6) = false := by
  refine ⟨?_, ?_, ?_, ?_, ?_, ?_⟩ <;> decide +kernel

end GeneGraph.Code
