import SecureIvshmem.Framework.Run
import SecureIvshmem.Framework.Ring
import SecureIvshmem.Proof.Rebalance
import SecureIvshmem.Proof.RequestProgress
import SecureIvshmem.Proof.Counters
import SecureIvshmem.Proof.Upsert
import SecureIvshmem.Proof.Shares
import SecureIvshmem.Proof.Release
import SecureIvshmem.Proof.Tolerance
import SecureIvshmem.Proof.DataSize
import SecureIvshmem.Proof.Chunk
import SecureIvshmem.Proof.Turns
import SecureIvshmem.Proof.Alone
import SecureIvshmem.Proof.EvpFailures
import SecureIvshmem.Proof.Crypto
import SecureIvshmem.Proof.Device
import SecureIvshmem.Proof.HookModule
import SecureIvshmem.Proof.Spin
import SecureIvshmem.Proof.HookedMmap
import SecureIvshmem.Proof.HookedDriver
import SecureIvshmem.Proof.MyshmModule
import SecureIvshmem.Proof.LockParties
import SecureIvshmem.Proof.LockProgress
import SecureIvshmem.Proof.LockStream
import SecureIvshmem.Proof.ClientTable
import SecureIvshmem.Proof.ClientCommand
import SecureIvshmem.Proof.Handshake
