import ZnsMint.Live.Steps
import ZnsMint.Registry.Blocks

/-! # The registry under the loop

In every state the loop reaches, the registry is the well-formed projection of a chain that ends at the
applied tip. This is what the results on orders, codes and payments stand on. -/

namespace ZnsMint.Live

open Basic Note Inbound Registry Lib.Machine

variable {params : Params} {keys : Keys} {s t : Live}

theorem wellFormed_listings {r r' : Registry} {lo : ℕ} (h : r.WellFormed lo) (hr : ListingsOnly r r') :
    r'.WellFormed lo := by
  rw [hr]
  exact ⟨h.nonempty, h.named, h.stamped, h.ordered, h.grammar, h.live, h.pool⟩

/-- What holds of the registry at every point of every run. -/
def Grounded (s : Live) : Prop := s.registry.WellFormed s.tip

theorem Grounded.sameTip (h : s.Grounded) (hst : SameTip s t) : t.Grounded := by
  unfold Grounded
  rw [hst.tip]
  exact wellFormed_listings h hst.registry

/-! ### Blocks -/

theorem Grounded.applyBlock (params : Params) (h : s.Grounded) (b : Block) :
    (s.applyBlock params b).Grounded :=
  h.confirmBlock (Nat.le_succ s.tip) _ b.mtp

/-- The market's part of a block touches listings only. -/
theorem sameTip_meetBlock (params : Params) (s : Live) : SameTip s (s.meetBlock params) where
  tip := rfl
  mtp := rfl
  chain := rfl
  registry :=
    let expired := s.market.expire s.registry s.mtp s.tip
    (ListingsOnly.expire s.market s.registry s.mtp s.tip).trans (.reconcile expired.1 expired.2 s.tip)

/-- A block's end is at the tip that `apply_block` reached. -/
theorem sameTip_block (params : Params) (keys : Keys) (s : Live) (b : Block) :
    SameTip (s.applyBlock params b) (s.block params keys b) := by
  have hmoves : Moves params .nothing _ _ := moves_block keys s b
  exact (sameTip_meetBlock params _).trans (Moves.sameTip hmoves)

/-! ### Reorgs -/

/-- The rewound registry is the truncated one, but for its listings. -/
theorem listingsOnly_reorg (params : Params) (s : Live) (rewound : ℕ) (mtp : ℤ) :
    ListingsOnly (s.registry.truncateToHeight rewound) (s.reorg params rewound mtp).registry :=
  let cut := s.market.truncateTo (s.registry.truncateToHeight rewound) rewound
  (ListingsOnly.truncateTo s.market _ rewound).trans (.expire cut.1 cut.2 mtp rewound)

theorem Grounded.reorg (params : Params) (h : s.Grounded) (rewound : ℕ) (mtp : ℤ) :
    (s.reorg params rewound mtp).Grounded :=
  wellFormed_listings (h.truncate rewound) (listingsOnly_reorg params s rewound mtp)

/-! ### Runs -/

theorem sameTip_tipPass {env : TipEnv} (h : s.tipPass params keys env = some t) : SameTip s t := by
  have htaken : SameTip s s.taken.state := ⟨rfl, rfl, rfl, .refl _⟩
  exact htaken.trans (Moves.sameTip (moves_tipPass h))

theorem grounded_boot (params : Params) (origin : ℕ) (mtp : ℤ) (blocks : List Block) (market : Market)
    (listings : NameMap Listing) (rate fee : Zatoshis) :
    (boot params origin mtp blocks market listings rate fee).Grounded := by
  have hloop := foldl_invariant (f := Live.applyBlock params)
    (I := fun _ (s : Live) => s.Grounded) (fun b _ s hs => hs.applyBlock params b) blocks
    ⟨origin, mtp, .new, .new, market, .new, .empty, .empty, .empty, rate, fee, [], []⟩
    (WellFormed.new origin)
  exact wellFormed_listings hloop rfl

theorem Grounded.step (h : s.Grounded) {a : Step} (hstep : s.step params keys a = some t) :
    t.Grounded := by
  rcases step_cases hstep with ⟨b, rfl, rfl⟩ | ⟨env, rfl, ht⟩ | ⟨rate, rfl, rfl⟩ |
    ⟨rewound, mtp, rfl, ⟨-, rfl⟩ | ⟨-, rfl⟩⟩
  · exact (h.applyBlock params b).sameTip (sameTip_block params keys s b)
  · exact h.sameTip (sameTip_tipPass ht)
  · exact h
  · exact h.reorg params rewound mtp
  · exact h

/-- Boot leaves every queue empty. -/
theorem boot_queues (params : Params) (origin : ℕ) (mtp : ℤ) (blocks : List Block) (market : Market)
    (listings : NameMap Listing) (rate fee : Zatoshis) :
    let s := boot params origin mtp blocks market listings rate fee
    s.challenges = .new ∧ s.nameNotes = .empty ∧ s.requests = .empty ∧ s.refunds = .empty ∧ s.log = [] :=
  foldl_invariant (f := Live.applyBlock params)
    (I := fun _ (s : Live) => s.challenges = .new ∧ s.nameNotes = .empty ∧ s.requests = .empty ∧
      s.refunds = .empty ∧ s.log = []) (fun _ _ _ hs => hs) blocks _ ⟨rfl, rfl, rfl, rfl, rfl⟩

end ZnsMint.Live
