import Flowchart.Proofs.Footprint
import Mathlib.Logic.Function.Basic

/-!
# What a text does not mention

A text can only be about what it mentions. Where two scopes agree on every name that
occurs in a text, they give the same value to it as an expression, the same truth value
as a condition, and the same line as a template (`same_of_mentions`).

The names of slots make no exception, although evaluation writes them into texts. They
are looked up with their values in range, so a variable of such a name is never read
unless the name is in the text already.
-/

namespace Flowchart

/-- Whether two scopes agree on every name that occurs in a text. -/
def AgreeOnMentioned (text : List Char) (s s' : Scope) : Prop :=
  ∀ name : String, name.toList <:+: text → s name = s' name

namespace AgreeOnMentioned

variable {text : List Char} {s s' : Scope}

theorem ofList (h : AgreeOnMentioned text s s') (name : List Char) (hname : name <:+: text) :
    s (String.ofList name) = s' (String.ofList name) :=
  h _ (by rwa [String.toList_ofList])

theorem agree (h : AgreeOnMentioned text s s') : Expr.Agree s s' text :=
  Expr.agree_of_infix h.ofList

/-- A variable that is not mentioned can have any value, or none. -/
theorem update (s : Scope) {name : String} (h : ¬name.toList <:+: text) (value : Option Value) :
    AgreeOnMentioned text (Function.update s name value) s := by
  intro other hother
  refine Function.update_of_ne ?_ _ _
  rintro rfl
  exact h hother

end AgreeOnMentioned

/-- The slots of a flat text have their values, whatever the scope around them. -/
theorem Expr.withSlots_of_resolveGroups {eval : Evaluator} {text : List Char} {scope : Scope}
    {flat : Flattened} (h : resolveGroups eval text scope = .ok flat) {name : List Char}
    (hmem : name ∈ names flat.text) (hnew : ¬name <:+: text) :
    ∃ n value, name = slotName n ∧ flat.values[n]? = some value ∧
      ∀ outer, withSlots flat.values outer (String.ofList name) = some value := by
  rcases names_resolveGroups h name hmem with hname | ⟨n, hn, rfl⟩
  · exact absurd (infix_of_mem_names hname) hnew
  · have hslot := List.getElem?_eq_getElem hn
    exact ⟨n, _, rfl, hslot, withSlots_slotName hslot⟩

/-- **A text depends only on what it mentions.** Scopes that agree on the names in a text
give the same results to it, values and errors alike. In particular nothing can be had
from a variable with the name of a slot: when groups become slots, each slot that the
text did not mention has its value. -/
theorem same_of_mentions (text : List Char) (s : Scope) :
    (∀ s', AgreeOnMentioned text s s' →
      Expr.evaluate text s = Expr.evaluate text s' ∧
        Expr.evaluateCondition text s = Expr.evaluateCondition text s' ∧
        Template.render s text = Template.render s' text) ∧
      (∀ n value, ¬Expr.slotName n <:+: text →
        Expr.evaluate text (Function.update s (String.ofList (Expr.slotName n)) value)
          = Expr.evaluate text s) ∧
      ∀ eval flat, Expr.resolveGroups eval text s = .ok flat →
        ∀ name ∈ Expr.names flat.text, ¬name <:+: text →
          ∃ n value, name = Expr.slotName n ∧ flat.values[n]? = some value ∧
            ∀ outer, Expr.withSlots flat.values outer (String.ofList name) = some value := by
  refine ⟨fun s' h => ?_, fun n value hn => ?_, fun eval flat hflat name hmem hnew => ?_⟩
  · exact ⟨Expr.evaluate_congr text s s' h.agree, Expr.evaluateCondition_congr h.agree,
      Template.render_congr h.ofList⟩
  · refine Expr.evaluate_congr text _ _ (AgreeOnMentioned.update s ?_ value).agree
    rwa [String.toList_ofList]
  · exact Expr.withSlots_of_resolveGroups hflat hmem hnew

/-- Two groups in a condition. The scope may call a variable by the name of a slot. -/
theorem same_of_mentions_groups :
    let text := "(x + 1) * 2 < 9 && (x > 0)".toList
    let s : Scope := fun name => if name = "x" then some (.int 2) else none
    let s' := Function.update s "$0" (some (.str "nine"))
    Expr.evaluate text s = .ok (.bool true) ∧ Expr.evaluate text s' = .ok (.bool true) := by
  intro text s s'
  have hvalue : Expr.evaluate text s = .ok (.bool true) := by decide +kernel
  have hagree : AgreeOnMentioned text s' s := AgreeOnMentioned.update s (by decide +kernel) _
  exact ⟨hvalue, ((same_of_mentions text s').1 s hagree).1.trans hvalue⟩

end Flowchart
