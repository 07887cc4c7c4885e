import Tandem.Digest.Sha256

/-!
# Derived seeds

The seed of a partition follows from one seed for all and from the partition's name alone, so neither
order nor number of partitions has a part in it.
-/

namespace Tandem

/-- The first eight bytes, lowest first, of the digest of the seed's eight bytes, lowest first, and the
name's UTF-8 bytes. -/
def deriveSeed (seed : UInt64) (name : String) : UInt64 :=
  let message := (Sha256.bytesOf 8 seed.toNat).reverse ++ name.toUTF8.toList
  Sha256.littleEndian ((Sha256.digest message).take 8)

end Tandem
