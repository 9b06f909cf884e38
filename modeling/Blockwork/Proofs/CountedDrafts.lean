import Blockwork.Proofs.OccurrenceCounts
import Blockwork.Proofs.PlanNames
import Blockwork.Proofs.Provides

/-!
# Drafts whose occurrences can be counted

What a declaration uses has one output, if it is a component, or the outputs of one of the blocks
(`Specification.SizedBy`). So the drafts alone tell how many copies of parameters star references
ask for at most, and if they are not too many for words (`CopiesFit`), nor are they in any network
that is linked (`BlockDraft.ensures_copiesFit`).
-/

namespace Blockwork

/-- The parameters of each declaration are not too many for a word, even if each of them is copied
for every output of one of the blocks. -/
def CopiesFit (drafts : List BlockDraft) : Prop :=
  ∀ b ∈ drafts, ∀ d ∈ b.declarations, ∀ o ∈ drafts,
    d.allParams.length * max 1 o.outputs.length < 2 ^ 32

instance (drafts : List BlockDraft) : Decidable (CopiesFit drafts) :=
  inferInstanceAs (Decidable (∀ b ∈ drafts, ∀ d ∈ b.declarations, ∀ o ∈ drafts,
    d.allParams.length * max 1 o.outputs.length < 2 ^ 32))

/-- There is one output, or as many as one of the blocks has. -/
def Specification.SizedBy (drafts : List BlockDraft) (x : Specification) : Prop :=
  x.interface.outputs.length = 1 ∨ ∃ o ∈ drafts, x.interface.outputs.length = o.outputs.length

variable {σ : Type} {good : σ → Prop} {c : Catalog} {drafts drafts' : List BlockDraft}

theorem CopiesFit.mono (h : CopiesFit drafts') (hsub : drafts ⊆ drafts') : CopiesFit drafts :=
  fun b hb d hd o ho => h b (hsub hb) d hd o (hsub ho)

theorem CopiesFit.of_sizedBy (h : CopiesFit drafts) {b : BlockDraft} (hb : b ∈ drafts)
    {d : DeclarationDraft} (hd : d ∈ b.declarations) {x : Specification} (hx : x.SizedBy drafts) :
    d.allParams.length * max 1 x.interface.outputs.length < 2 ^ 32 := by
  rcases hx with hone | ⟨o, ho, hsize⟩
  · calc d.allParams.length * max 1 x.interface.outputs.length
      _ = d.allParams.length * 1 := by rw [hone, Nat.max_self]
      _ ≤ d.allParams.length * max 1 b.outputs.length :=
        Nat.mul_le_mul_left _ (Nat.le_max_left ..)
      _ < 2 ^ 32 := h b hb d hd b hb
  · exact hsize ▸ h b hb d hd o ho

/-! ## What is used -/

/-- Components have one output. -/
theorem Catalog.Registered.sizedBy (hc : c.Registered) {x : Component} (hx : x ∈ c.components)
    (drafts : List BlockDraft) : Specification.SizedBy drafts ⟨x.name, false, x.interface⟩ := by
  obtain ⟨d, hbuild⟩ := hc.exists_build x hx
  unfold ComponentDraft.build at hbuild
  obtain ⟨type, -, hbuild⟩ := bind_eq_ok.1 hbuild
  obtain ⟨parameters, -, hbuild⟩ := bind_eq_ok.1 hbuild
  obtain rfl := pure_eq_ok.1 hbuild
  exact Or.inl rfl

namespace BlockDraft

variable {r : Resolver σ} {b : BlockDraft}

/-- The plan of a block has its outputs. -/
theorem sizedBy_compile (hb : b ∈ drafts) {s : σ} {p : Plan}
    (hok : ((b.compile r).run.run s).1 = .ok p) : p.specification.SizedBy drafts := by
  refine Or.inr ⟨b, hb, ?_⟩
  have hnames := congrArg List.length (names_compile hok).2
  rwa [List.length_map, List.length_map] at hnames

/-- A declaration that is linked has the parameters of the draft and the outputs of what it uses. -/
theorem length_link {h : Hierarchy} {d : DeclarationDraft} {x : Specification} {location : Location}
    {e : Declaration} (hok : d.link h x location = .ok e) :
    e.parameters.length = d.allParams.length ∧
      e.outputs.length = x.interface.outputs.length := by
  unfold DeclarationDraft.link at hok
  obtain ⟨parameters, hparameters, hok⟩ := bind_eq_ok.1 hok
  obtain rfl := pure_eq_ok.1 hok
  refine ⟨(forall₂_of_mapM_eq_ok hparameters).length_eq.symm, ?_⟩
  simp [Declaration.indexPipelines]

/-- Star references copy no parameter of a network that is linked too often. -/
theorem ensures_copiesFit (hc : c.Registered) (hfit : CopiesFit drafts)
    (hr : r.Within c good (Specification.SizedBy drafts)) (hb : b ∈ drafts) :
    Ensures good (b.link r) Network.CopiesFit := by
  have hserves := fun d : DeclarationDraft => d.ensures_serves
    (fun _ _ hx => hc.sizedBy (hr.component _ _ hx) drafts) hr.block
  refine (Ensures.forall₂ (R := fun (d : DeclarationDraft) (e : Declaration) =>
    e.parameters.length = d.allParams.length ∧ ∃ x : Specification, x.SizedBy drafts ∧
      e.outputs.length = x.interface.outputs.length) (fun d => ?_) b.declarations).bind
    fun ds hds => .pure fun e he e' he' => ?_
  · exact (hserves d _).bind fun x hx => .lift fun e he =>
      ⟨(length_link he).1, x, hx, (length_link he).2⟩
  · obtain ⟨d, hd, hparameters, -⟩ := exists_mem_of_forall₂ hds he
    obtain ⟨-, -, -, x, hx, houtputs⟩ := exists_mem_of_forall₂ hds he'
    rw [hparameters, houtputs]
    exact hfit.of_sizedBy hb hd hx

end BlockDraft

end Blockwork
