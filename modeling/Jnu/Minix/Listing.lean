import Jnu.Minix.Sample
import Jnu.Minix.Reads

namespace Jnu.Minix

open Lib.Effect

-- `minix_readdir` lists entries of a directory, and `minix_lookup` finds the first of them with the name.
def Lists (s : Fs) (o : Nat) (name : Name) : Prop :=
  ∃ (entries : List DirEntry) (found : Option DirEntry), found = entries.find? (·.text == name) ∧
    (∀ i, wp (minixReaddir o i) (fun r s' => r = entries[i]? ∧ ∃ c, s' = s.at c) never s) ∧
    wp (minixLookup o name)
      (fun r s' => ∃ de, found = some de ∧ r = s.next ∧ Made (s.loaded de.inode) s s')
      (fun e s' => (∃ c, s' = s.at c) ∧ ((found = none ∧ e = .enoent) ∨
        ∃ de, found = some de ∧ (¬ s.Plenty ∨ s.nblocks ≤ inodeBlock s.sb de.inode))) s

theorem lookup_agrees_readdir {s : Fs} {o : Nat} {nd : Node} {name : Name} (hs : Readable s)
    (hn : s.node o = some nd) (hdir : nd.isDir = true) (hsize : nd.raw.size.toNat ≤ 2 ^ 32 - blockSize)
    (hname : name ≠ dot) : Lists s o name := by
  have hD : 2 ^ 32 - blockSize < nd.raw.size.toNat → False := by omega
  refine ⟨((dirSlots s.sb s.block nd.raw).filter fun p => listed s.sb p.2).map Prod.snd,
    (listedOf s.sb s.block nd.raw name).map Prod.snd, ?_, fun i => ?_, ?_⟩
  · simp only [List.find?_map, List.find?_filter, Bool.decide_and, Bool.decide_eq_true]
    rfl
  · refine (wpOr_minixReaddir hs hn hdir hD fun c => ⟨?_, c, rfl⟩).resolve_left And.left
    rw [List.getElem?_map]
  · refine (wpOr_minixLookup hs hn hname hD ?_ ?_ ?_ ?_).resolve_left And.left
    · exact fun p s' _ hp hm => ⟨p.2, by rw [hp]; rfl, rfl, hm⟩
    · exact fun hfile => by simp [hdir] at hfile
    · exact fun c _ hp => ⟨⟨c, rfl⟩, .inl ⟨by rw [hp]; rfl, rfl⟩⟩
    · exact fun p e c hp hfail => ⟨⟨c, rfl⟩, .inr ⟨p.2, by rw [hp]; rfl, hfail⟩⟩

theorem sampleTree_readable : Readable sampleTree := ⟨fun _ => rfl, by decide⟩

theorem lookup_agrees_readdir_sample : Lists sampleTree 0 [0x64] :=
  lookup_agrees_readdir sampleTree_readable rfl rfl (by decide +kernel) (by decide)

end Jnu.Minix
